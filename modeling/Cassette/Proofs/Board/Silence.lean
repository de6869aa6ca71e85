import Cassette.Proofs.Acia.Sounding
import Cassette.Proofs.Board.Cadence
import Mathlib.Data.List.Destutter

/-!
# A stopped motor

A cassette is silent while its motor is off.  Nothing that happens to the board then makes the tape
in the deck play, and the tone generator has been silenced when the motor stopped.  The relay of the
motor is heard once for every change of the motor, and it does not matter how often the machine asks
for the state that the motor is in.

## Main definitions

* `Board.Deed` and `Board.Stretch` — a stretch of a board's history, on which its host may also
  exchange the tape on the shelf.
* `Deed.handle` — what hands do to the tapes in the deck and on the shelf.
* `Operation.sounding` — what is heard of an operation.
* `Hushed` — the tone generator has been silenced.

## Main results

* `perform_tones`, `perform_relays`, `perform_still` — what an operation adds to what is heard.
* `Reachable.silent` — **a stopped motor means a silent cassette.**
-/

namespace Cassette

namespace Board

open Acia (Chip Sounding Moment)

variable {ρ : Type}

/-! ### Stretches of a history -/

/-- What happens to a board and to the tape beside it. -/
inductive Deed (ρ : Type) where
  | operation (op : Operation ρ)
  /-- The host exchanges the tape on the shelf for another, or for none. -/
  | shelve (shelf : Option Tape)

/-- A stretch of a board's history: what happens to it, each with the board after it. -/
inductive Stretch [Acia.SerialPeer ρ] : Board ρ → List (Deed ρ × Board ρ) → Board ρ → Prop where
  | nil (b : Board ρ) : Stretch b [] b
  | operation {b b' b'' : Board ρ} {op : Operation ρ} {reply : Reply}
      {rest : List (Deed ρ × Board ρ)} (h : b.perform op = .ok (reply, b'))
      (hrest : Stretch b' rest b'') : Stretch b ((.operation op, b') :: rest) b''
  | shelve {b b'' : Board ρ} {shelf : Option Tape} {rest : List (Deed ρ × Board ρ)}
      (hrest : Stretch { b with shelf } rest b'') :
      Stretch b ((.shelve shelf, { b with shelf }) :: rest) b''

/-- What an operation does to the tapes in the deck and on the shelf, when none is played. -/
def Operation.handle (tapes : Option Tape × Option Tape) :
    Operation ρ → Option Tape × Option Tape
  | .insert data clock =>
    match (Tape.load data clock).2 with
    | .ok tape => (some tape, tapes.1.or tapes.2)
    | .error _ => tapes
  | .eject => (none, tapes.1.or tapes.2)
  | .reinsert =>
    match tapes.2 with
    | none => (tapes.1, none)
    | some tape => (some tape, tapes.1)
  | .rewind => (tapes.1.map Tape.rewind, tapes.2)
  | _ => tapes

/-- What hands do to the tapes in the deck and on the shelf. -/
def Deed.handle (tapes : Option Tape × Option Tape) : Deed ρ → Option Tape × Option Tape
  | .operation op => op.handle tapes
  | .shelve shelf => (tapes.1, shelf)

theorem handled_eq (b : Board ρ) (op : Operation ρ) :
    b.handled op = op.handle (b.acia.chip.deck, b.shelf) := by
  cases op <;> rfl

/-! ### What is heard of an operation -/

/-- What has been heard after an operation other than the passing of time. -/
def Operation.sounding (now : Cycles) (k : Sounding) : Operation ρ → Sounding
  | .attachTone attached => { k with toneAttached := attached }
  | .attachNoise attached => { k with noiseAttached := attached }
  | op => k.switched now (op.motor k.motorOn)

section

variable (now : Cycles) {k : Sounding}

/-- When the motor stops, and only then, an attached tone generator is told something. -/
theorem Operation.tones_sounding (htone : k.toneAttached = true) {op : Operation ρ}
    (hop : op ≠ .attachTone false) :
    (op.sounding now k).toneAttached = true ∧ (op.sounding now k).tones
      = k.tones ++ if k.motorOn && !(op.sounding now k).motorOn then [⟨now, .mute⟩] else [] := by
  cases op with
  | attachTone attached =>
    cases attached with
    | true => simp [sounding]
    | false => exact absurd rfl hop
  | attachNoise attached => simp [sounding, htone]
  | _ =>
    refine ⟨(k.toneAttached_switched now _).trans htone, ?_⟩
    exact (k.tones_switched now _ htone).trans (by simp only [sounding, k.motorOn_switched])

/-- When the motor changes, and only then, the motor noise is told so. -/
theorem Operation.relays_sounding (hnoise : k.noiseAttached = true) {op : Operation ρ}
    (hop : op ≠ .attachNoise false) :
    (op.sounding now k).noiseAttached = true ∧ (op.sounding now k).relays
      = k.relays ++ if (op.sounding now k).motorOn = k.motorOn then []
          else [(op.sounding now k).motorOn] := by
  cases op with
  | attachNoise attached =>
    cases attached with
    | true => simp [sounding]
    | false => exact absurd rfl hop
  | attachTone attached => simp [sounding, hnoise]
  | _ =>
    refine ⟨(k.noiseAttached_switched now _).trans hnoise, ?_⟩
    exact (k.relays_switched now _ hnoise).trans (by simp only [sounding, k.motorOn_switched])

/-- No operation but the passing of time makes the tape play. -/
theorem Operation.deck_sounding (op : Operation ρ) : (op.sounding now k).deck = k.deck := by
  cases op with
  | attachNoise | attachTone => rfl
  | _ => exact k.deck_switched now _

end

theorem sounding_routed (a : Acia ρ) (u : SerialUla) :
    (a.routed u).chip.sounding = a.chip.sounding.switched a.now u.motorOn := by
  refine (Acia.sounding_select _ _).trans ?_
  rw [Acia.sounding_switched, Acia.sounding_rated, Acia.now_rated]

/-! ### The tone generator -/

/-- Since the tone generator had been told `before`, it has been silenced if the motor is off, or it
has not been told anything. -/
def Hushed (before : List Moment) (c : Chip ρ) : Prop :=
  ∃ calls, c.tones = before ++ calls ∧
    (c.motorOn = false → ∀ m ∈ calls.getLast?, m.event = .mute)

/-- A tone generator that is told more stays silenced, if the motor stays off and it is told
nothing, or if it is silenced at last. -/
theorem Hushed.more {before more : List Moment} {c c' : Chip ρ} (h : Hushed before c)
    (htones : c'.tones = c.tones ++ more)
    (hmore : c'.motorOn = false →
      (c.motorOn = false ∧ more = []) ∨ ∃ m ∈ more.getLast?, m.event = .mute) :
    Hushed before c' := by
  obtain ⟨calls, hcalls, hlast⟩ := h
  refine ⟨calls ++ more, by rw [htones, hcalls, List.append_assoc], fun hoff m hm => ?_⟩
  rcases hmore hoff with ⟨hmotor, rfl⟩ | ⟨last, hlast', hmute⟩
  · rw [List.append_nil] at hm
    exact hlast hmotor m hm
  · rw [List.getLast?_append_of_ne_nil _ (by rintro rfl; simp at hlast')] at hm
    rw [Option.mem_unique hm hlast']
    exact hmute

/-! ### What operations add to it -/

variable [Acia.SerialPeer ρ]

theorem outcome_sounding (b : Board ρ) (op : Operation ρ) :
    (b.outcome op).chip.sounding = op.sounding b.acia.now b.acia.chip.sounding := by
  have hsame {k : Sounding} (h : k = b.acia.chip.sounding) :
      k = b.acia.chip.sounding.switched b.acia.now b.acia.chip.motorOn := by
    rw [h]
    exact (if_pos rfl).symm
  cases op with
  | switchMotor on => exact Acia.sounding_switched b.acia on
  | ulaWrite value => exact sounding_routed b.acia ⟨value⟩
  | ulaRead => exact sounding_routed b.acia ⟨SerialUla.busValue⟩
  | attachTone | attachNoise => rfl
  | read address => exact hsame (Acia.sounding_read b.acia address)
  | write address value => exact hsame (Acia.sounding_written b.acia address value)
  | selectRs423 selected => exact hsame (Acia.sounding_select b.acia.chip selected)
  | setReceiveRate rate => exact hsame (Acia.sounding_rated b.acia rate)
  | insert data clock => exact hsame (Acia.sounding_opened b.acia _)
  | reinsert =>
    exact hsame (outcome_reinsert (P := (·.chip.sounding = b.acia.chip.sounding)) rfl
      (Acia.sounding_loaded b.acia))
  | rewind => exact hsame (Acia.sounding_rewind b.acia)
  | reset | setCarrier | receive | poll | eject | ulaReset | attachPeer => exact hsame rfl

/-- An operation is heard as it says, or it is the passing of time. -/
theorem perform_sounding {b b' : Board ρ} (hb : b.Reachable) {op : Operation ρ} {reply : Reply}
    (h : b.perform op = .ok (reply, b')) :
    ((∃ cycles, op = .poll cycles) ∧ b.acia.chip.Plays b'.acia.chip ∧ b'.shelf = b.shelf) ∨
      (b'.acia.chip.sounding = op.sounding b.acia.now b.acia.chip.sounding ∧
        (b'.acia.chip.deck, b'.shelf) = op.handle (b.acia.chip.deck, b.shelf)) := by
  rcases perform_cases h with ⟨cycles, e, rfl, hpoll, hsame⟩ | hop
  · obtain ⟨timers, chip, hadv, -, ha⟩ := Acia.Sound.poll_ok hpoll
    have hplays := Acia.plays_advance hb.sound.timed hadv
    refine Or.inl ⟨⟨cycles, rfl⟩, ?_, ?_⟩
    · rw [ha]
      exact hplays.trans (.of_same rfl fun _ => rfl)
    · rw [hsame]
      rfl
  · obtain ⟨hsteps, hshelf⟩ := perform_steps h hop
    have hsounding := outcome_sounding b op
    rw [← perform_outcome hb.sound hb.transmitDelay_ne_zero h hop] at hsounding
    refine Or.inr ⟨hsounding, ?_⟩
    rw [hsteps.sameDeck.deck, hshelf, ← handled_eq]
    rfl

theorem perform_tones {b b' : Board ρ} (hb : b.Reachable) {op : Operation ρ} {reply : Reply}
    (h : b.perform op = .ok (reply, b')) (hop : op ≠ .attachTone false) {before : List Moment}
    (htone : b.acia.chip.toneAttached = true) (hhushed : Hushed before b.acia.chip) :
    b'.acia.chip.toneAttached = true ∧ Hushed before b'.acia.chip := by
  rcases perform_sounding hb h with ⟨-, hplays, -⟩ | ⟨hsounding, -⟩
  · obtain ⟨more, hmore⟩ := hplays.tones
    refine ⟨hplays.toneAttached.trans htone, hhushed.more hmore.symm fun hoff => Or.inl ?_⟩
    have hmotor : b.acia.chip.motorOn = false := hplays.motorOn.symm.trans hoff
    have hsame : b'.acia.chip.tones = b.acia.chip.tones :=
      congrArg Sounding.tones (hplays.still hmotor).1
    exact ⟨hmotor, List.append_right_eq_self.mp (hmore.trans hsame)⟩
  · obtain ⟨hattached, hmore⟩ := Operation.tones_sounding b.acia.now htone hop
      (k := b.acia.chip.sounding)
    rw [← hsounding] at hattached hmore
    refine ⟨hattached, hhushed.more hmore fun hoff => ?_⟩
    change b'.acia.chip.sounding.motorOn = false at hoff
    rw [hoff]
    -- the motor was off before, or it has just been switched off
    cases hmotor : b.acia.chip.motorOn with
    | false => exact Or.inl ⟨rfl, if_neg (by simp [Chip.sounding, hmotor])⟩
    | true =>
      rw [if_pos (by simp [Chip.sounding, hmotor])]
      exact Or.inr ⟨_, rfl, rfl⟩

theorem perform_relays {b b' : Board ρ} (hb : b.Reachable) {op : Operation ρ} {reply : Reply}
    (h : b.perform op = .ok (reply, b')) (hop : op ≠ .attachNoise false)
    (hnoise : b.acia.chip.noiseAttached = true) :
    b'.acia.chip.noiseAttached = true ∧ b'.acia.chip.relays
      = b.acia.chip.relays ++ if b'.acia.chip.motorOn = b.acia.chip.motorOn then []
          else [b'.acia.chip.motorOn] := by
  rcases perform_sounding hb h with ⟨-, hplays, -⟩ | ⟨hsounding, -⟩
  · refine ⟨hplays.noiseAttached.trans hnoise, ?_⟩
    rw [if_pos hplays.motorOn, List.append_nil]
    exact hplays.relays
  · have hrelays := Operation.relays_sounding b.acia.now hnoise hop (k := b.acia.chip.sounding)
    rw [← hsounding] at hrelays
    exact hrelays

/-- An operation after which the motor is off does not make the tape play. -/
theorem perform_still {b b' : Board ρ} (hb : b.Reachable) {op : Operation ρ} {reply : Reply}
    (h : b.perform op = .ok (reply, b')) (hoff : b'.acia.chip.motorOn = false) :
    b'.acia.chip.deckMoments = b.acia.chip.deckMoments ∧
      (b'.acia.chip.deck, b'.shelf) = op.handle (b.acia.chip.deck, b.shelf) := by
  rcases perform_sounding hb h with ⟨⟨cycles, rfl⟩, hplays, hshelf⟩ | ⟨hsounding, htapes⟩
  · obtain ⟨hsame, hdeck⟩ := hplays.still (hplays.motorOn.symm.trans hoff)
    refine ⟨congrArg Sounding.deck hsame, ?_⟩
    rw [hdeck, hshelf]
    rfl
  · exact ⟨(congrArg Sounding.deck hsounding).trans (Operation.deck_sounding b.acia.now op), htapes⟩

/-! ### Whole stretches -/

namespace Stretch

variable {b b' : Board ρ} {steps : List (Deed ρ × Board ρ)}

theorem hushed (hb : b.Reachable) (h : Stretch b steps b')
    (htone : b.acia.chip.toneAttached = true)
    (hkept : ∀ step ∈ steps, step.1 ≠ .operation (.attachTone false)) {before : List Moment}
    (hhushed : Hushed before b.acia.chip) : Hushed before b'.acia.chip := by
  induction h with
  | nil => exact hhushed
  | operation h _ ih =>
    obtain ⟨hfirst, hrest⟩ := List.forall_mem_cons.mp hkept
    obtain ⟨htone', hhushed'⟩ :=
      perform_tones hb h (fun hop => hfirst (congrArg Deed.operation hop)) htone hhushed
    exact ih (hb.perform h) htone' hrest hhushed'
  | shelve _ ih => exact ih (hb.shelve _) htone (List.forall_mem_cons.mp hkept).2 hhushed

theorem still (hb : b.Reachable) (h : Stretch b steps b')
    (hoff : ∀ step ∈ steps, step.2.acia.chip.motorOn = false) :
    b'.acia.chip.deckMoments = b.acia.chip.deckMoments ∧
      (b'.acia.chip.deck, b'.shelf)
        = (steps.map (·.1)).foldl Deed.handle (b.acia.chip.deck, b.shelf) := by
  induction h with
  | nil => exact ⟨rfl, rfl⟩
  | operation h _ ih =>
    obtain ⟨hfirst, hrest⟩ := List.forall_mem_cons.mp hoff
    obtain ⟨hdeck, htapes⟩ := perform_still hb h hfirst
    obtain ⟨hdeck', htapes'⟩ := ih (hb.perform h) hrest
    refine ⟨hdeck'.trans hdeck, ?_⟩
    rw [htapes', htapes]
    rfl
  | shelve _ ih => exact ih (hb.shelve _) (List.forall_mem_cons.mp hoff).2

theorem relays (hb : b.Reachable) (h : Stretch b steps b')
    (hnoise : b.acia.chip.noiseAttached = true)
    (hkept : ∀ step ∈ steps, step.1 ≠ .operation (.attachNoise false)) :
    ∃ calls, b'.acia.chip.relays = b.acia.chip.relays ++ calls ∧
      b.acia.chip.motorOn :: calls
        = (b.acia.chip.motorOn :: steps.map (·.2.acia.chip.motorOn)).destutter (· ≠ ·) := by
  induction h with
  | nil => exact ⟨[], (List.append_nil _).symm, rfl⟩
  | @operation b b₁ _ _ _ rest h _ ih =>
    obtain ⟨hfirst, hrest⟩ := List.forall_mem_cons.mp hkept
    obtain ⟨hnoise', hrelays⟩ :=
      perform_relays hb h (fun hop => hfirst (congrArg Deed.operation hop)) hnoise
    obtain ⟨calls, hcalls, hchanges⟩ := ih (hb.perform h) hnoise' hrest
    rw [List.map_cons, List.destutter_cons_cons]
    by_cases hmotor : b₁.acia.chip.motorOn = b.acia.chip.motorOn
    · rw [if_pos hmotor, List.append_nil] at hrelays
      refine ⟨calls, by rw [hcalls, hrelays], ?_⟩
      rw [if_neg fun hne => hne hmotor.symm, ← hmotor]
      exact hchanges
    · rw [if_neg hmotor] at hrelays
      refine ⟨b₁.acia.chip.motorOn :: calls, by rw [hcalls, hrelays, List.append_assoc]; rfl, ?_⟩
      rw [if_pos fun heq => hmotor heq.symm]
      exact congrArg _ hchanges
  | shelve _ ih =>
    obtain ⟨calls, hcalls, hchanges⟩ := ih (hb.shelve _) hnoise (List.forall_mem_cons.mp hkept).2
    refine ⟨calls, hcalls, ?_⟩
    rw [List.map_cons, List.destutter_cons_cons, if_neg fun hne => hne rfl]
    exact hchanges

end Stretch

/-- **A stopped motor means a silent cassette.**

On every stretch of a board's history, whatever happens on it and whatever tapes its host puts into
the deck: as long as a tone generator stays attached, the last it is told before a moment at which
the motor is off is to fall silent, or it is told nothing.  While the motor is off, from the
operation that stops it on, no tape has anything to say, and the tapes in the deck and on the shelf
are those that hands have put there, rewound at most.  And as long as a motor noise stays attached,
it is told of the changes of the motor and of nothing else, so that what it is told alternates. -/
theorem Reachable.silent {b b' : Board ρ} (hb : b.Reachable) {steps : List (Deed ρ × Board ρ)}
    (h : Stretch b steps b') :
    (b.acia.chip.toneAttached = true →
      (∀ step ∈ steps, step.1 ≠ .operation (.attachTone false)) →
      b'.acia.chip.motorOn = false →
      ∃ calls, b'.acia.chip.tones = b.acia.chip.tones ++ calls ∧
        ∀ m ∈ calls.getLast?, m.event = .mute) ∧
    ((∀ step ∈ steps, step.2.acia.chip.motorOn = false) →
      b'.acia.chip.deckMoments = b.acia.chip.deckMoments ∧
      (b'.acia.chip.deck, b'.shelf)
        = (steps.map (·.1)).foldl Deed.handle (b.acia.chip.deck, b.shelf)) ∧
    (b.acia.chip.noiseAttached = true →
      (∀ step ∈ steps, step.1 ≠ .operation (.attachNoise false)) →
      ∃ calls, b'.acia.chip.relays = b.acia.chip.relays ++ calls ∧
        b.acia.chip.motorOn :: calls
          = (b.acia.chip.motorOn :: steps.map (·.2.acia.chip.motorOn)).destutter (· ≠ ·) ∧
        (b.acia.chip.motorOn :: calls).IsChain (· ≠ ·)) := by
  refine ⟨fun htone hkept hoff => ?_, h.still hb, fun hnoise hkept => ?_⟩
  · obtain ⟨calls, htones, hlast⟩ :=
      h.hushed hb htone hkept ⟨[], (List.append_nil _).symm, fun _ _ => nofun⟩
    exact ⟨calls, htones, hlast hoff⟩
  · obtain ⟨calls, hcalls, hchanges⟩ := h.relays hb hnoise hkept
    refine ⟨calls, hcalls, hchanges, ?_⟩
    rw [hchanges]
    exact List.isChain_destutter _ _

/-- A board that plays a tape, with somebody to hear it. -/
def audible : Board Unit :=
  ({ plain with shelf := some (.tapefile (.ofImage [0x41, 0x42] .standard)) } : Board Unit).after
    [.attachTone true, .attachNoise true, .reinsert, .switchMotor true, .poll 600]

/-- The motor stops in the midst of a byte, the machine asks for that once more, the tape is
rewound, and time passes: the tone generator and the motor noise are told of it once, and the tape
is where it began. -/
theorem silent_audible :
    ∃ (steps : List (Deed Unit × Board Unit)) (b' : Board Unit), audible.Reachable ∧
      Stretch audible steps b' ∧ audible.acia.chip.motorOn = true ∧ b'.acia.chip.motorOn = false ∧
      b'.acia.chip.tones.map (·.event) = [.mute] ∧ b'.acia.chip.relays = [true, false] ∧
      (∃ calls, b'.acia.chip.tones = audible.acia.chip.tones ++ calls ∧
        ∀ m ∈ calls.getLast?, m.event = .mute) ∧
      b'.acia.chip.deckMoments = audible.acia.chip.deckMoments ∧
      (b'.acia.chip.deck, b'.shelf)
        = (steps.map (·.1)).foldl Deed.handle (audible.acia.chip.deck, audible.shelf) ∧
      ∃ calls, b'.acia.chip.relays = audible.acia.chip.relays ++ calls ∧
        audible.acia.chip.motorOn :: calls = (audible.acia.chip.motorOn ::
          steps.map (·.2.acia.chip.motorOn)).destutter (· ≠ ·) ∧
        (audible.acia.chip.motorOn :: calls).IsChain (· ≠ ·) := by
  let b₁ := audible.after [.switchMotor false]
  let b₂ := b₁.after [.ulaWrite 0x00]
  let b₃ := b₂.after [.rewind]
  let b₄ := b₃.after [.poll 5000]
  obtain ⟨_, h₁⟩ := perform_after audible (.switchMotor false) (by decide +kernel)
  obtain ⟨_, h₂⟩ := perform_after b₁ (.ulaWrite 0x00) (by decide +kernel)
  obtain ⟨_, h₃⟩ := perform_after b₂ .rewind (by decide +kernel)
  obtain ⟨_, h₄⟩ := perform_after b₃ (.poll 5000) (by decide +kernel)
  have hreachable : audible.Reachable := (reachable_plain.shelve _).after _
  have hstretch : Stretch audible [(.operation (.switchMotor false), b₁),
      (.operation (.ulaWrite 0x00), b₂), (.operation .rewind, b₃),
      (.operation (.poll 5000), b₄)] b₄ :=
    .operation h₁ (.operation h₂ (.operation h₃ (.operation h₄ (.nil b₄))))
  obtain ⟨htones, hstill, hrelays⟩ := hreachable.silent hstretch
  have hoff : b₁.acia.chip.motorOn = false ∧ b₂.acia.chip.motorOn = false ∧
      b₃.acia.chip.motorOn = false ∧ b₄.acia.chip.motorOn = false :=
    ⟨by decide +kernel, by decide +kernel, by decide +kernel, by decide +kernel⟩
  obtain ⟨hdeck, htapes⟩ := hstill (by simpa using hoff)
  exact ⟨_, b₄, hreachable, hstretch, by decide +kernel, hoff.2.2.2, by decide +kernel,
    by decide +kernel, htones (by decide +kernel) (by simp) hoff.2.2.2, hdeck, htapes,
    hrelays (by decide +kernel) (by simp)⟩

end Board

end Cassette
