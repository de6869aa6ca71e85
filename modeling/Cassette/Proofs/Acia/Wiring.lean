import Cassette.Proofs.Acia.Outcome

/-!
# How the timers are wired to the chip

The tape's timer is pending exactly while the motor runs with a tape in the deck, and that of the
line exactly while RS423 is selected, which is also when sending is held.  The control register
never holds the setting that asks for a reset, and the receive rate is positive.  Every operation
keeps it so, and so does every act of a timer, also the one that drops a tape.

## Main definitions

* `Wired` — how the timers are wired to the chip.

## Main results

* `Wired.act`, `Wired.poll` — the passing of time keeps to the wiring.
* `Wired.written`, `Wired.switched`, `Wired.loaded`, … — so do the operations.
-/

namespace Cassette.Acia

variable {ρ : Type}

/-- How the timers are wired to a chip that is set up in some way, with a tape or without. -/
structure Wired (s : Scheduler Timer) (k : Standing) (loaded : Bool) : Prop where
  tape : (Timer.tape.due? s).isSome = (k.motorOn && loaded)
  rs423 : (Timer.rs423.due? s).isSome = k.rs423Selected
  held : k.sendHeld = k.rs423Selected
  control : Control.isReset k.control = false
  rate : k.receiveRate ≠ 0

/-- The timers of the chip are wired to it. -/
def IsWired (a : Acia ρ) : Prop := Wired a.timers a.chip.standing a.chip.deck.isSome

/-! ### Time -/

/-- A turn of the deck that plays leaves a tape in it exactly when it gives a delay. -/
theorem isSome_pollTape {c : Chip ρ} {tape : Tape} (now : Cycles) (hmotor : c.motorOn = true)
    (hdeck : c.deck = some tape) :
    (c.pollTape now).1.isSome = (c.pollTape now).2.deck.isSome := by
  rw [deck_pollTape now hmotor hdeck]
  unfold Chip.pollTape Tape.afterRun
  rw [hmotor, hdeck]
  dsimp only
  cases (tape.run c.control).getLast? with
  | none => rfl
  | some unit =>
    simp only [Option.bind_some, Tape.Played.next?]
    cases unit.delay <;> rfl

/-- An act of a timer keeps to the wiring. -/
theorem Wired.act [SerialPeer ρ] {s : Scheduler Timer} {c : Chip ρ} {e : Entry} {rest : List Entry}
    {timer : Timer} (h : Wired s c.standing c.deck.isSome) (horderly : s.Orderly)
    (hs : s.agenda = e :: rest) (htask : e.task = timer.id) :
    Wired ((Timer.renew (s.takeOut e) e.task (timer.act e.due c).1).putBack e.task timer)
      (timer.act e.due c).2.standing (timer.act e.due c).2.deck.isSome := by
  have hpending : timer.due? s = some e.due := Timer.due?_of_head hs htask
  rw [standing_act]
  refine ⟨?_, ?_, h.held, h.control, h.rate⟩
  · rw [Timer.due?_fire horderly hs htask]
    change _ = (c.motorOn && _)
    cases timer with
    | transmit => exact h.tape
    | tape =>
      -- the timer is pending, so there is a tape to play
      have hplays := h.tape
      rw [hpending] at hplays
      obtain ⟨hmotor, hloaded⟩ : c.motorOn = true ∧ c.deck.isSome = true := by
        simpa [Chip.standing] using hplays
      obtain ⟨tape, hdeck⟩ := Option.isSome_iff_exists.mp hloaded
      rw [if_pos rfl, Option.isSome_map, Timer.act_tape, isSome_pollTape _ hmotor hdeck, hmotor]
      rfl
    | rs423 =>
      rw [if_neg (by decide), h.tape, Timer.act_rs423]
      split
      · rw [(sameDeck_pollPeer e.due c).deck]
        rfl
      · rfl
  · rw [Timer.due?_fire horderly hs htask]
    cases timer with
    | transmit => exact h.rs423
    | tape => exact h.rs423
    | rs423 =>
      -- the timer is pending, so the line is selected
      have hselected : c.rs423Selected = true := by
        have hline := h.rs423
        rw [hpending] at hline
        exact hline.symm
      rw [if_pos rfl, Timer.act_rs423, if_pos hselected]
      exact hselected.symm

/-- So does an advance. -/
theorem Wired.advance [SerialPeer ρ] {s s' : Scheduler Timer} {c c' : Chip ρ}
    (h : Wired s c.standing c.deck.isSome) (htimed : Timed s c) {limit : Nat} {target : Cycles}
    (hadv : Scheduler.advance Timer.routine limit target s c = .ok (s', c')) :
    Wired s' c'.standing c'.deck.isSome := by
  obtain ⟨s₁, h₁, rfl⟩ := htimed.induct (fun s c => Wired s c.standing c.deck.isSome)
    (fun htimed h hs htask _ => h.act htimed.orderly hs htask) h hadv
  exact ⟨h₁.tape, h₁.rs423, h₁.held, h₁.control, h₁.rate⟩

/-! ### Commands -/

section

variable {s : Scheduler Timer} {k : Standing} {inside : Bool} (h : Wired s k inside)

include h

theorem Wired.keep_transmit (run : Bool) (delay : Cycles) :
    Wired (Timer.keep s .transmit run delay) k inside := by
  refine ⟨?_, ?_, h.held, h.control, h.rate⟩
  · rw [Timer.due?_keep]
    exact h.tape
  · rw [Timer.due?_keep]
    exact h.rs423

theorem Wired.keep_rs423 (selected : Bool) (delay : Cycles) :
    Wired (Timer.keep s .rs423 selected delay)
      { k with rs423Selected := selected, sendHeld := selected } inside := by
  refine ⟨?_, ?_, rfl, h.control, h.rate⟩
  · rw [Timer.due?_keep]
    exact h.tape
  · rw [Timer.due?_keep, if_pos rfl]
    cases selected with
    | true => exact Option.isSome_or.trans (Bool.or_true _)
    | false => rfl

theorem Wired.keep_tape (on inside' : Bool) (delay : Cycles) :
    Wired (Timer.keep s .tape (on && inside') delay) { k with motorOn := on } inside' := by
  refine ⟨?_, ?_, h.held, h.control, h.rate⟩
  · rw [Timer.due?_keep, if_pos rfl]
    change _ = (on && inside')
    cases on && inside' with
    | true => exact Option.isSome_or.trans (Bool.or_true _)
    | false => rfl
  · rw [Timer.due?_keep]
    exact h.rs423

end

/-! ### Operations -/

namespace IsWired

variable {a : Acia ρ} (h : a.IsWired)

include h

/-- What neither sets the chip up nor handles the deck keeps to the wiring. -/
theorem onChip (f : Chip ρ → Chip ρ) (hstanding : (f a.chip).standing = a.chip.standing)
    (hdeck : (f a.chip).deck = a.chip.deck) : (a.onChip f).IsWired := by
  unfold IsWired Acia.onChip
  rw [hstanding, hdeck]
  exact h

theorem record (e : Event) : (a.record e).IsWired := h

theorem noise (e : Event) : (a.noise e).IsWired := by
  unfold IsWired
  rw [timers_noise, standing_noise, deck_noise]
  exact h

theorem tell (told : List Tape.Notice) : (a.tell told).IsWired := by
  unfold Acia.tell
  induction told generalizing a with
  | nil => exact h
  | cons notice told ih => exact ih (h.record _)

theorem reset : a.reset.IsWired := ⟨h.tape, h.rs423, h.held, h.control, h.rate⟩

theorem read (address : UInt16) : (a.read address).2.IsWired := by
  unfold Acia.read
  split <;> exact h

theorem written [SerialPeer ρ] (address : UInt16) (value : UInt8) :
    (a.written address value).IsWired := by
  unfold Acia.written
  split
  · have hfilled : (a.onChip Chip.fill).IsWired := ⟨h.tape, h.rs423, h.held, h.control, h.rate⟩
    have hkept : ((a.onChip Chip.fill).keep .transmit true a.transmitDelay).IsWired :=
      Wired.keep_transmit hfilled true _
    exact hkept.onChip _ (standing_transmit ..) (sameDeck_transmit ..).deck
  · split
    · exact h.reset
    · next hvalue => exact ⟨h.tape, h.rs423, h.held, eq_false_of_ne_true hvalue, h.rate⟩

theorem selected (selected : Bool) : (a.selected selected).IsWired := by
  have hkept := Wired.keep_rs423 h selected (a.chip.select selected).byteTime
  unfold IsWired
  change Wired _ (a.chip.select selected).standing (a.chip.select selected).deck.isSome
  rw [standing_select, deck_select]
  exact hkept

theorem rated (rate : UInt32) : (a.rated rate).IsWired := by
  unfold Acia.rated
  split
  · exact h
  · next hrate => exact ⟨h.tape, h.rs423, h.held, h.control, hrate⟩

theorem switched (on : Bool) : (a.switched on).IsWired := by
  unfold Acia.switched
  split
  · exact h
  · split
    · have hkept := Wired.keep_tape h true a.chip.deck.isSome 1
      unfold IsWired Acia.keep
      dsimp only
      rw [timers_noise, standing_noise, deck_noise]
      exact hkept
    · -- the tone and the carrier that go with the motor are no part of the wiring
      have hkept : ((a.relayed false).keep .tape false 1).IsWired :=
        Wired.keep_tape h false a.chip.deck.isSome 1
      have hsilent : (((a.relayed false).onChip (·.playTone a.now .zero)).keep
          .tape false 1).IsWired :=
        hkept.onChip (·.playTone a.now .zero) (standing_playTone ..) (sameDeck_playTone ..).deck
      have hdropped := hsilent.onChip (·.cassetteCarrier false) (standing_cassetteCarrier ..)
        (sameDeck_cassetteCarrier ..).deck
      exact hdropped.noise .motorOff

theorem loaded (tape : Tape) : (a.loaded tape).IsWired := by
  -- the timer is cancelled whatever the motor does, and armed again if the motor runs
  have hcancelled := Wired.keep_tape h false a.chip.deck.isSome 1
  have hkept := hcancelled.keep_tape a.chip.motorOn true 1
  rw [Bool.and_true] at hkept
  exact hkept

theorem opened (image : List Tape.Notice × Except Tape.Error Tape) : (a.opened image).IsWired := by
  obtain ⟨told, opened⟩ := image
  cases opened with
  | error e => exact h.tell told
  | ok tape => exact (h.tell told).loaded tape

theorem unloaded : a.unloaded.IsWired := by
  have hkept := Wired.keep_tape h a.chip.motorOn false 1
  rw [Bool.and_false] at hkept
  exact hkept

theorem rewind : a.rewind.IsWired := by
  unfold Acia.rewind
  split
  · exact h
  · next tape hdeck =>
    -- the tape stays in the deck, at its start
    have hloaded : a.chip.deck.isSome = true := by rw [hdeck]; rfl
    have h : Wired a.timers a.chip.standing a.chip.deck.isSome := h
    rw [hloaded] at h
    exact h

end IsWired

end Cassette.Acia
