import Cassette.Proofs.Acia.Wiring
import Cassette.Proofs.Scheduler.StepSize

/-!
# The cadence of the tape

The tape in the deck sets its own pace.  Each of its polls gives the delay after which the next one
is due, counted from its own cycle and not from the cycle that the host has come to.  After a poll
without a delay the next one is on the same cycle, and no timer fires between the two.

## Main definitions

* `Cadence` — polls that come when they are due.
* `InTime` — the polls since some moment have come when they were due, and the timer of the tape is
  pending for the next one.
* `Chip.Rested` — the last poll has a delay, or has failed.

## Main results

* `cadence_run` — a turn of the deck keeps the cadence.
* `InTime.advance` — so does the passing of time.
* `tapeDue_switched`, `tapeDue_loaded` — a tape that starts to play is due on the next cycle.
* `rested_watch` — whenever a timer fires, the tape has come to rest.
* `deckPolls_advance` — with the motor off, or an empty deck, nothing is polled.
-/

namespace Cassette.Acia

variable {ρ : Type}

/-! ### Polls in time -/

/-- The cycle that a poll sets for the next one, unless it has failed. -/
def DeckPoll.next? (p : DeckPoll) : Option Nat :=
  p.delay.toOption.map fun delay => p.cycle.count + delay.count

/-- Each poll is on the cycle that the one before has set, the first on `due?`; and the last one
has set `next?`.  After a failure there is no other poll. -/
def Cadence : Option Nat → List DeckPoll → Option Nat → Prop
  | due?, [], next? => due? = next?
  | due?, p :: polls, next? => due? = some p.cycle.count ∧ Cadence p.next? polls next?

theorem Cadence.append {first? second? third? : Option Nat} {polls more : List DeckPoll}
    (h : Cadence first? polls second?) (h' : Cadence second? more third?) :
    Cadence first? (polls ++ more) third? := by
  induction polls generalizing first? with
  | nil =>
    obtain rfl : first? = second? := h
    exact h'
  | cons p polls ih => exact ⟨h.1, ih h.2⟩

/-- The polls of a turn of the deck are on one cycle, and the last of them sets the next one. -/
theorem cadence_run (now : Cycles) (control : UInt8) (tape : Tape) :
    Cadence (some now.count) ((tape.run control).map fun unit => ⟨now, unit.delay⟩)
      (((tape.run control).getLast?.bind (·.delay.toOption)).map (now.count + ·.count)) := by
  induction tape using Tape.run_induct control with
  | last t hdelay => exact ⟨rfl, rfl⟩
  | more t hdelay ih =>
    obtain ⟨last, hlast, -⟩ := (t.poll control).tape.getLast?_run control
    rw [hlast] at ih
    rw [List.getLast?_cons, hlast]
    refine ⟨rfl, ?_⟩
    have hnext : DeckPoll.next? ⟨now, (t.poll control).delay⟩ = some now.count := by
      rw [hdelay]
      rfl
    rw [hnext]
    exact ih

/-- The polls after those in `polled` have come when they were due, the first on `due?`, and the
timer of the tape is pending for the next one. -/
def InTime (due? : Option Nat) (polled : List DeckPoll) (s : Scheduler Timer) (c : Chip ρ) : Prop :=
  ∃ polls next?, c.deckPolls = polled ++ polls ∧ Cadence due? polls next? ∧
    Timer.tape.due? s = next?.map Cycles.ofNat

section

variable {due? : Option Nat} {polled : List DeckPoll} {s s' : Scheduler Timer} {c c' : Chip ρ}

/-- What neither polls the tape nor moves its timer has no part in the cadence. -/
theorem InTime.congr (h : InTime due? polled s c) (hpolls : c'.deckPolls = c.deckPolls)
    (hdue : Timer.tape.due? s' = Timer.tape.due? s) : InTime due? polled s' c' := by
  unfold InTime
  rw [hpolls, hdue]
  exact h

variable [SerialPeer ρ]

/-- A turn of the deck is on the cycle that the last poll has set. -/
theorem InTime.act {e : Entry} {rest : List Entry} {timer : Timer} (h : InTime due? polled s c)
    (hwired : Wired s c.standing c.deck.isSome) (horderly : s.Orderly) (hs : s.agenda = e :: rest)
    (htask : e.task = timer.id) (hlast : e.due.count < Cycles.last.count) :
    InTime due? polled
      ((Timer.renew (s.takeOut e) e.task (timer.act e.due c).1).putBack e.task timer)
      (timer.act e.due c).2 := by
  have hfire := Timer.due?_fire horderly hs htask (timer.act e.due c).1 .tape
  cases timer with
  | transmit => exact h.congr rfl hfire
  | rs423 =>
    refine h.congr ?_ hfire
    rw [Timer.act_rs423]
    split
    · exact (sameDeck_pollPeer e.due c).deckPolls
    · rfl
  | tape =>
    obtain ⟨polls, next?, hpolls, hcadence, hdue⟩ := h
    -- the timer is pending, so there is a tape to play
    have hpending := Timer.due?_of_head hs htask
    have hplays := hwired.tape
    rw [hpending] at hplays hdue
    obtain ⟨hmotor, hloaded⟩ : c.motorOn = true ∧ c.deck.isSome = true := by
      simpa [Chip.standing] using hplays
    obtain ⟨tape, hdeck⟩ := Option.isSome_iff_exists.mp hloaded
    obtain ⟨n, rfl, hn⟩ := Option.map_eq_some_iff.mp hdue.symm
    obtain rfl : n = e.due.count := by
      have hcount := congrArg Cycles.count hn
      rw [Cycles.count_ofNat] at hcount
      rw [Cycles.count_last] at hlast
      omega
    rw [Timer.act_tape] at hfire ⊢
    refine ⟨_, _, ?_, hcadence.append (cadence_run e.due c.control tape), ?_⟩
    · rw [deckPolls_pollTape e.due hmotor hdeck, hpolls, List.append_assoc]
    · rw [hfire, if_pos rfl, Option.map_map]
      unfold Chip.pollTape
      rw [hmotor, hdeck]
      rfl

/-- Below the end of time the passing of time keeps the cadence. -/
theorem InTime.advance (h : InTime due? polled s c) (hwired : Wired s c.standing c.deck.isSome)
    (htimed : Timed s c) {limit : Nat} {target : Cycles}
    (hlast : target.count < Cycles.last.count)
    (hadv : Scheduler.advance Timer.routine limit target s c = .ok (s', c')) :
    InTime due? polled s' c' := by
  obtain ⟨s₁, ⟨-, h₁⟩, rfl⟩ := htimed.induct
    (fun s c => Wired s c.standing c.deck.isSome ∧ InTime due? polled s c)
    (fun htimed h hs htask hdue => ⟨h.1.act htimed.orderly hs htask,
      h.2.act h.1 htimed.orderly hs htask (Nat.lt_of_le_of_lt (Nat.le_of_not_lt hdue) hlast)⟩)
    ⟨hwired, h⟩ hadv
  exact h₁

end

/-! ### The timer of the tape -/

section

variable (a : Acia ρ)

theorem tapeDue_written [SerialPeer ρ] (address : UInt16) (value : UInt8) :
    Timer.tape.due? (a.written address value).timers = Timer.tape.due? a.timers := by
  unfold written
  split
  · exact (Timer.due?_keep ..).trans (if_neg (by decide))
  · split <;> rfl

theorem tapeDue_selected (selected : Bool) :
    Timer.tape.due? (a.selected selected).timers = Timer.tape.due? a.timers :=
  (Timer.due?_keep ..).trans (if_neg (by decide))

theorem timers_rated (rate : UInt32) : (a.rated rate).timers = a.timers := by
  unfold rated
  split <;> rfl

theorem timers_rewind : a.rewind.timers = a.timers := by
  unfold rewind
  split <;> rfl

/-- A tape that goes into the deck is due on the next cycle if the motor runs. -/
theorem tapeDue_loaded (tape : Tape) (hmotor : a.chip.motorOn = true) :
    Timer.tape.due? (a.loaded tape).timers = some (a.now + 1) := by
  unfold loaded keep
  rw [hmotor, Timer.due?_keep, Timer.due?_keep]
  simp only [↓reduceIte, Timer.epoch_keep]
  rfl

/-- So is the tape in the deck when the motor starts. -/
theorem tapeDue_switched (hwired : a.IsWired) (hmotor : a.chip.motorOn = false)
    (hdeck : a.chip.deck.isSome = true) :
    Timer.tape.due? (a.switched true).timers = some (a.now + 1) := by
  -- while the motor is off the timer is idle
  have hidle : Timer.tape.due? a.timers = none := by
    have hpending := hwired.tape
    rw [show a.chip.standing.motorOn = false from hmotor] at hpending
    simpa using hpending
  have hloaded : ((a.relayed true).noise .motorOn).chip.deck.isSome = true := by
    rw [deck_noise]
    exact hdeck
  unfold switched
  rw [hmotor, if_neg (by decide), if_pos rfl, hloaded]
  refine (Timer.due?_keep ..).trans ?_
  rw [timers_noise, if_pos rfl, if_pos rfl]
  change (Timer.tape.due? a.timers).or _ = _
  rw [hidle]
  rfl

theorem timers_switched_self {on : Bool} (h : on = a.chip.motorOn) :
    (a.switched on).timers = a.timers := by
  unfold switched
  rw [if_pos h]

end

/-! ### At rest -/

/-- The last poll of the tape has a delay, or has failed. -/
def Chip.Rested (c : Chip ρ) : Prop := ∀ p ∈ c.deckPolls.getLast?, p.delay ≠ .ok 0

theorem SameDeck.rested {c c' : Chip ρ} (h : SameDeck c c') (hrested : c.Rested) : c'.Rested := by
  unfold Chip.Rested
  rw [h.deckPolls]
  exact hrested

section

variable [SerialPeer ρ] {s : Scheduler Timer} {c : Chip ρ}

theorem rested_act (timer : Timer) (now : Cycles) (h : c.Rested) : (timer.act now c).2.Rested := by
  cases timer with
  | transmit => exact h
  | rs423 =>
    rw [Timer.act_rs423]
    split
    · exact (sameDeck_pollPeer now c).rested h
    · exact h
  | tape =>
    rw [Timer.act_tape]
    by_cases hidle : c.motorOn = false ∨ c.deck = none
    · rw [pollTape_of_idle now hidle]
      exact h
    · rw [not_or, Bool.not_eq_false] at hidle
      obtain ⟨tape, hdeck⟩ := Option.ne_none_iff_exists'.mp hidle.2
      obtain ⟨last, hlast, hdelay⟩ := tape.getLast?_run c.control
      unfold Chip.Rested
      rw [deckPolls_pollTape now hidle.1 hdeck, List.getLast?_append, List.getLast?_map, hlast]
      rintro p hp
      obtain rfl := Option.some.inj hp
      exact hdelay

theorem rested_advance (htimed : Timed s c) (h : c.Rested) {limit : Nat} {target : Cycles}
    {s' : Scheduler Timer} {c' : Chip ρ}
    (hadv : Scheduler.advance Timer.routine limit target s c = .ok (s', c')) : c'.Rested := by
  obtain ⟨-, h', -⟩ := htimed.induct (fun _ c => c.Rested)
    (fun {_ _ e _ timer} _ h _ _ _ => rested_act timer e.due h) h hadv
  exact h'

/-- Whenever a timer fires, the tape has come to rest. -/
theorem rested_watch (htimed : Timed s c) (h : c.Rested) (limit : Nat) (target : Cycles) :
    ∀ x ∈ (Scheduler.watch Timer.routine limit target s c).seen, x.context.Rested := by
  intro x hx
  obtain ⟨s, e, rest, c, ⟨-, hrested⟩, -, -, rfl⟩ := Scheduler.watch_induct
    (fun s c => Timed s c ∧ c.Rested)
    (Timed.keeps (fun _ c => c.Rested)
      (fun {_ _ e _ timer} _ h _ _ _ => rested_act timer e.due h))
    ⟨htimed, h⟩ x hx
  exact hrested

/-! ### Nothing to poll -/

/-- With the motor off, or an empty deck, no timer polls a tape. -/
theorem deckPolls_act (timer : Timer) (now : Cycles) (h : c.motorOn = false ∨ c.deck = none) :
    ((timer.act now c).2.motorOn = false ∨ (timer.act now c).2.deck = none) ∧
      (timer.act now c).2.deckPolls = c.deckPolls := by
  cases timer with
  | transmit => exact ⟨h, rfl⟩
  | rs423 =>
    rw [Timer.act_rs423]
    split
    · have hsame := sameDeck_pollPeer now c
      have hmotor : (c.pollPeer now).motorOn = c.motorOn :=
        congrArg (·.motorOn) (standing_pollPeer now c)
      dsimp only
      rw [hmotor, hsame.deck]
      exact ⟨h, hsame.deckPolls⟩
    · exact ⟨h, rfl⟩
  | tape =>
    rw [Timer.act_tape, pollTape_of_idle now h]
    exact ⟨h, rfl⟩

/-- Nor does the passing of time. -/
theorem deckPolls_advance (htimed : Timed s c) (h : c.motorOn = false ∨ c.deck = none)
    {limit : Nat} {target : Cycles} {s' : Scheduler Timer} {c' : Chip ρ}
    (hadv : Scheduler.advance Timer.routine limit target s c = .ok (s', c')) :
    c'.deckPolls = c.deckPolls := by
  obtain ⟨-, ⟨-, h'⟩, -⟩ := htimed.induct
    (fun _ c' => (c'.motorOn = false ∨ c'.deck = none) ∧ c'.deckPolls = c.deckPolls)
    (fun {_ _ e _ timer} _ h _ _ _ =>
      ⟨(deckPolls_act timer e.due h.1).1, (deckPolls_act timer e.due h.1).2.trans h.2⟩)
    ⟨h, rfl⟩ hadv
  exact h'

end

end Cassette.Acia
