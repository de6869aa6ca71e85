import Cassette.Proofs.Acia.Timers
import Cassette.Proofs.Board.Steps

/-!
# The board in use

A board comes to its states by operations, and its host may at any moment exchange the tape on
the shelf for any other at any position.  Whatever happens, the timers stay in order, nothing
is overdue and no tape error is left to report.  Below the end of time letting time pass always
succeeds, and it does not matter in how many steps it passes.

## Main definitions

* `Acia.Sound` — what holds of the chip and its timers at all times.
* `Board.Reachable` — the states of a board.

## Main results

* `Acia.Sound.steps`, `Acia.Sound.poll` — what holds is kept.
* `Board.Reachable.sound` — it holds in every state.
* `Board.run_cons_iff` — a history, one operation at a time.
* `Board.Reachable.poll_add` — **the size of the steps in which time passes does not matter**.
-/

namespace Cassette

namespace Acia

variable {ρ : Type}

/-- What holds of the chip and its timers at all times. -/
structure Sound (a : Acia ρ) : Prop where
  timed : Timed a.timers a.chip
  ahead : a.timers.Ahead
  reported : a.chip.deckError = none

namespace Sound

variable {a a' : Acia ρ}

theorem ofConfig {config : Config} (h : Acia.ofConfig config = .ok a) : a.Sound := by
  unfold Acia.ofConfig at h
  split at h
  · simp at h
  · split at h
    · simp at h
    · rw [← Except.ok.inj h]
      refine ⟨⟨?_, rfl, fun _ => rfl⟩, ?_, rfl⟩
      · exact ((Scheduler.Orderly.new.register _).register _).register _
      · intro e he
        simp [Timer.all, Scheduler.register] at he

theorem setDeck (h : a.Sound) (deck : Option Tape) : (a.setDeck deck).Sound :=
  ⟨⟨h.timed.orderly, h.timed.bodies, fun herror => absurd h.reported herror⟩, h.ahead, h.reported⟩

theorem command (h : a.Sound) {c : Scheduler.Command} (hc : a.command c = .ok a') : a'.Sound := by
  unfold Acia.command at hc
  split at hc
  · next timers ha =>
    rw [← Except.ok.inj hc]
    refine ⟨⟨h.timed.orderly.apply ha, ?_, h.timed.lost⟩, h.ahead.apply ha, h.reported⟩
    exact (Scheduler.bodies_of_apply ha).trans h.timed.bodies
  · simp at hc

theorem steps (h : a.Sound) (hsteps : Steps a a') : a'.Sound := by
  induction hsteps with
  | refl => exact h
  | chip _ f hf ih =>
    exact ⟨⟨ih.timed.orderly, ih.timed.bodies, hf.lost ih.timed.lost⟩, ih.ahead,
      hf.deckError.trans ih.reported⟩
  | command _ hc ih => exact ih.command hc

/-- Below the end of time the limit is three firings for each cycle and the one before. -/
theorem firingLimit_eq (a : Acia ρ) {cycles : Cycles}
    (hend : a.now.count + cycles.count < Cycles.last.count) :
    a.firingLimit cycles = 3 * (cycles.count + 1) + 1 := by
  have hne : a.now + cycles ≠ .last := by
    intro heq
    have hcount := congrArg Cycles.count heq
    rw [Cycles.count_add] at hcount
    rw [Cycles.count_last] at hend hcount
    omega
  unfold firingLimit
  rw [if_neg hne]

variable [SerialPeer ρ]

theorem poll_eq {timers : Scheduler Timer} {chip : Chip ρ} {cycles : Cycles}
    (h : Scheduler.advance Timer.routine (a.firingLimit cycles) (a.now + cycles) a.timers a.chip
      = .ok (timers, chip)) :
    a.poll cycles
      = .ok (chip.deckError, { a with timers, chip := { chip with deckError := none } }) := by
  have h : Scheduler.advance Timer.routine (a.firingLimit cycles) (a.timers.epoch + cycles)
    a.timers a.chip = .ok (timers, chip) := h
  unfold Acia.poll Scheduler.poll
  rw [h]

/-- What a poll amounts to, when it comes to its end. -/
theorem poll_ok {cycles : Cycles} {e : Option Tape.Error} (h : a.poll cycles = .ok (e, a')) :
    ∃ timers chip, Scheduler.advance Timer.routine (a.firingLimit cycles) (a.now + cycles)
        a.timers a.chip = .ok (timers, chip) ∧
      e = chip.deckError ∧
      a' = { a with timers, chip := { chip with deckError := none } } := by
  unfold Acia.poll at h
  split at h
  · simp at h
  · next timers chip hadv =>
    obtain ⟨rfl, rfl⟩ := Prod.mk.inj (Except.ok.inj h)
    exact ⟨timers, chip, hadv, rfl, rfl⟩

theorem poll (h : a.Sound) {cycles : Cycles} {e : Option Tape.Error}
    (hpoll : a.poll cycles = .ok (e, a')) : a'.Sound := by
  obtain ⟨timers, chip, hadv, -, rfl⟩ := poll_ok hpoll
  obtain ⟨htimed, hepoch, hlater⟩ := h.timed.of_advance hadv
  refine ⟨⟨htimed.orderly, htimed.bodies, fun herror => absurd rfl herror⟩, ?_, rfl⟩
  intro e he
  change timers.epoch.count ≤ e.due.count
  rw [hepoch]
  exact Nat.le_of_lt (hlater e he)

/-! ### Steps of time -/

/-- Below the end of time every advance comes to its end. -/
theorem advance (h : a.Sound) (cycles : Cycles)
    (hend : a.now.count + cycles.count < Cycles.last.count) :
    ∃ timers chip, Scheduler.advance Timer.routine (a.firingLimit cycles) (a.now + cycles)
      a.timers a.chip = .ok (timers, chip) := by
  have hcount : (a.now + cycles).count = a.now.count + cycles.count := by
    rw [Cycles.count_add]
    rw [Cycles.count_last] at hend
    omega
  rw [firingLimit_eq a hend]
  refine h.timed.advance (by omega) h.ahead ?_
  have hnow : a.now.count = a.timers.epoch.count := rfl
  omega

/-- Time may pass in two steps. -/
theorem poll_split (h : a.Sound) {first second : Cycles}
    (hend : a.now.count + first.count + second.count < Cycles.last.count) :
    ∃ e₁ a₁ e₂ a₂, a.poll first = .ok (e₁, a₁) ∧ a₁.poll second = .ok (e₂, a₂) ∧
      a.poll (first + second) = .ok (e₁.or e₂, a₂) ∧ (e₁ = none ∨ e₂ = none) := by
  have hsum : (first + second).count = first.count + second.count := by
    rw [Cycles.count_add]
    rw [Cycles.count_last] at hend
    omega
  obtain ⟨s₁, c₁, hadv₁⟩ := h.advance first (by omega)
  let a₁ : Acia ρ := { a with timers := s₁, chip := { c₁ with deckError := none } }
  have hpoll₁ : a.poll first = .ok (c₁.deckError, a₁) := poll_eq hadv₁
  have hnow : a₁.now = a.now + first := (h.timed.of_advance hadv₁).2.1
  have hcount : a₁.now.count = a.now.count + first.count := by
    rw [hnow, Cycles.count_add]
    rw [Cycles.count_last] at hend
    omega
  obtain ⟨s₂, c₂, hadv₂⟩ := (h.poll hpoll₁).advance second (by omega)
  obtain ⟨s₃, c₃, hadv₃⟩ := h.advance (first + second) (by omega)
  refine ⟨c₁.deckError, a₁, c₂.deckError, _, hpoll₁, poll_eq hadv₂, ?_⟩
  have htarget : a₁.now + second = a.now + (first + second) := by
    apply Cycles.ext
    rw [Cycles.count_add, Cycles.count_add, hcount, hsum, Nat.add_assoc]
  have hle : (a.now + first).count ≤ (a.now + (first + second)).count := by
    rw [← hnow, ← htarget]
    exact Scheduler.count_le_add _ _
  -- the two advances make up one to the target of both, with the sum of their limits
  rw [htarget] at hadv₂
  obtain ⟨hlong, hone⟩ := h.timed.advance_report hle hadv₁ hadv₂
  -- the limit of the long advance is lower than the two others together, and high enough
  have hmore := Scheduler.advance_limit Timer.neverPoll_routine (a.now + (first + second))
    (a.firingLimit (first + second)) 4 a.timers a.chip (by
      rintro ⟨context, hx⟩
      rw [hadv₃] at hx
      simp at hx)
  have hlimits : a.firingLimit (first + second) + 4
      = a.firingLimit first + a₁.firingLimit second := by
    rw [firingLimit_eq a (by omega), firingLimit_eq a (by omega), firingLimit_eq a₁ (by omega)]
    omega
  rw [hlimits, hlong, hadv₃] at hmore
  obtain ⟨rfl, rfl⟩ := Prod.mk.inj (Except.ok.inj hmore)
  exact ⟨poll_eq hadv₃, hone⟩

end Sound

end Acia

namespace Board

variable {ρ : Type} [Acia.SerialPeer ρ]

/-- The states of a board, whose host may exchange the tape on the shelf for any other. -/
inductive Reachable : Board ρ → Prop where
  | start {config : Acia.Config} {b : Board ρ} (h : Board.ofConfig config = .ok b) : Reachable b
  | perform {b b' : Board ρ} (hb : Reachable b) {op : Operation ρ} {reply : Reply}
      (h : b.perform op = .ok (reply, b')) : Reachable b'
  | shelve {b : Board ρ} (hb : Reachable b) (shelf : Option Tape) : Reachable { b with shelf }

theorem Reachable.sound {b : Board ρ} (h : b.Reachable) : b.acia.Sound := by
  induction h with
  | start h =>
    obtain ⟨a, ha, h⟩ := bind_ok h
    rw [← Except.ok.inj h]
    exact Acia.Sound.ofConfig ha
  | perform hb h ih =>
    rcases perform_cases h with ⟨cycles, e, -, hpoll, -⟩ | hop
    · exact ih.poll hpoll
    · exact (ih.setDeck _).steps (perform_steps h hop).1
  | shelve hb shelf ih => exact ih

/-- **The size of the steps in which time passes does not matter.**  From any state of a board,
below the end of time, two polls succeed and leave the chip with its devices, its timers, its
deck and its trace as one poll of both together leaves them.  At most one of the two reports a
tape error, and the one poll reports it, or none if neither does. -/
theorem Reachable.poll_add {b : Board ρ} (h : b.Reachable) {first second : Cycles}
    (hend : b.acia.now.count + first.count + second.count < Cycles.last.count) :
    ∃ e₁ a₁ e₂ a₂, b.acia.poll first = .ok (e₁, a₁) ∧ a₁.poll second = .ok (e₂, a₂) ∧
      b.acia.poll (first + second) = .ok (e₁.or e₂, a₂) ∧ (e₁ = none ∨ e₂ = none) :=
  h.sound.poll_split hend

/-- A history is its first operation and the history after it. -/
theorem run_cons_iff {b b' : Board ρ} {op : Operation ρ} {ops : List (Operation ρ)}
    {replies : List Reply} :
    b.run (op :: ops) = .ok (replies, b') ↔
      ∃ reply rest b₁, b.perform op = .ok (reply, b₁) ∧ b₁.run ops = .ok (rest, b') ∧
        replies = reply :: rest := by
  constructor
  · intro h
    obtain ⟨⟨reply, b₁⟩, hperform, h⟩ := bind_ok h
    obtain ⟨⟨rest, b₂⟩, hrest, h⟩ := bind_ok h
    obtain ⟨rfl, rfl⟩ := Prod.mk.inj (Except.ok.inj h)
    exact ⟨reply, rest, b₁, hperform, hrest, rfl⟩
  · rintro ⟨reply, rest, b₁, hperform, hrest, rfl⟩
    rw [run, hperform]
    change (b₁.run ops >>= fun x => Except.ok (reply :: x.1, x.2)) = _
    rw [hrest]
    rfl

/-- A history keeps to the states of a board. -/
theorem Reachable.run {b b' : Board ρ} (hb : b.Reachable) {ops : List (Operation ρ)}
    {replies : List Reply} (h : b.run ops = .ok (replies, b')) : b'.Reachable := by
  induction ops generalizing b replies with
  | nil =>
    obtain ⟨-, rfl⟩ := Prod.mk.inj (Except.ok.inj h)
    exact hb
  | cons op ops ih =>
    obtain ⟨reply, rest, b₁, hop, hops, -⟩ := run_cons_iff.mp h
    exact ih (hb.perform hop) hops

theorem run_append {b b₁ b₂ : Board ρ} {ops ops' : List (Operation ρ)}
    {replies replies' : List Reply} (h : b.run ops = .ok (replies, b₁))
    (h' : b₁.run ops' = .ok (replies', b₂)) :
    b.run (ops ++ ops') = .ok (replies ++ replies', b₂) := by
  induction ops generalizing b replies with
  | nil =>
    obtain ⟨rfl, rfl⟩ := Prod.mk.inj (Except.ok.inj h)
    exact h'
  | cons op ops ih =>
    obtain ⟨reply, rest, b₃, hop, hops, rfl⟩ := run_cons_iff.mp h
    exact run_cons_iff.mpr ⟨reply, rest ++ replies', b₃, hop, ih hops, rfl⟩

/-- Below the end of time a history may go on with a poll. -/
theorem Reachable.exists_poll {b b₁ : Board ρ} (hb : b.Reachable) {ops : List (Operation ρ)}
    {replies : List Reply} (h : b.run ops = .ok (replies, b₁)) {cycles : Cycles}
    (hend : b₁.acia.now.count + cycles.count < Cycles.last.count) :
    ∃ replies' b', b.run (ops ++ [.poll cycles]) = .ok (replies', b') := by
  obtain ⟨timers, chip, hadv⟩ := (hb.run h).sound.advance cycles hend
  have hpoll : ∃ replies' b', b₁.run [.poll cycles] = .ok (replies', b') := by
    rw [Board.run, Board.perform, Acia.Sound.poll_eq hadv]
    exact ⟨_, _, rfl⟩
  obtain ⟨replies', b', hpoll⟩ := hpoll
  exact ⟨_, b', run_append h hpoll⟩

/-! ### A board to try things on -/

/-- A device that offers nothing. -/
instance : Acia.SerialPeer Unit := ⟨fun _ _ => (none, ()), fun _ _ => ()⟩

/-- A board of the default configuration. -/
def plain : Board Unit :=
  { acia :=
      { chip := { clock := .standard, receiveRate := 19200 }
        timers := Acia.Timer.all.foldl (fun s timer => (s.register timer).2) {}
        transmitDelay := 2000 } }

theorem reachable_plain : plain.Reachable := .start (show Board.ofConfig {} = .ok plain from rfl)

/-- While a tape plays and a byte is being sent, 3000 cycles may pass as 1 and 2999. -/
theorem poll_add_playing :
    ∃ b : Board Unit, b.Reachable ∧ b.acia.timers.pending = 2 ∧
      b.acia.now.count + (1 : Cycles).count + (2999 : Cycles).count < Cycles.last.count ∧
      ∃ e₁ a₁ e₂ a₂, b.acia.poll 1 = .ok (e₁, a₁) ∧ a₁.poll 2999 = .ok (e₂, a₂) ∧
        b.acia.poll (1 + 2999) = .ok (e₁.or e₂, a₂) ∧ (e₁ = none ∨ e₂ = none) := by
  have hloaded := reachable_plain.shelve (some (.tapefile (.ofImage [0x41, 0x42] .standard)))
  have hplaying := hloaded.run
    (show Board.run _ [.reinsert, .switchMotor true, .write 1 0x55] = .ok (_, _) from rfl)
  exact ⟨_, hplaying, rfl, by decide, hplaying.poll_add (by decide)⟩

end Board

end Cassette
