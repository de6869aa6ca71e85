import Cassette.Proofs.Acia.Transmitter
import Cassette.Proofs.Board.Outcome

/-!
# How long a transmission takes

Whatever happens to a board, its transmitter sees resets, written bytes and the passing of time,
and nothing else.  A program that writes only when the transmit register is empty finds it full
from a write up to the deadline of the byte and empty from then on.  The deadline is as long
after the write as a transmission takes, with one exception: a master reset empties the register
without stopping the timer, and a byte that is written then has been sent when the one before it
would have been.

## Main definitions

* `Transmitter.follow` — what an operation is to the transmitter.
* `Board.Careful` — the operations of a program that waits for the transmit register.

## Main results

* `perform_transmitter` — every operation is that to the transmitter.
* `Reachable.deadline_le`, `Course.deadline_eq` — when the deadline is.
* `Reachable.sends` — **the transmit register is full up to the deadline and empty from then on**.
-/

namespace Cassette

namespace Acia.Transmitter

variable {ρ : Type}

/-- What an operation is to the transmitter, on cycle `now` and with the given transmit delay. -/
def follow (t : Transmitter) (now delay : Cycles) : Board.Operation ρ → Transmitter
  | .reset => t.reset
  | .write address value =>
    if isData address then t.send (now + delay)
    else if Control.isReset value then t.reset else t
  | .poll cycles => t.pass (now + cycles)
  | _ => t

/-- An operation that leaves the register empty, or about to become so. -/
def settles : Board.Operation ρ → Bool
  | .reset => true
  | .write address value => isData address || Control.isReset value
  | _ => false

/-- The register is empty, or about to become so. -/
def Settled (t : Transmitter) : Prop := t.empty = true ∨ t.due?.isSome = true

section

variable {t : Transmitter} {now delay : Cycles} {op : Board.Operation ρ}

/-- The timer fires when it was to fire before, or a transmit delay from now. -/
theorem due?_follow {due : Cycles} (h : (t.follow now delay op).due? = some due) :
    t.due? = some due ∨ due = now + delay := by
  cases op with
  | write address value =>
    simp only [follow] at h
    split at h
    · rcases Option.or_eq_some_iff.mp h with h | ⟨-, h⟩
      · exact Or.inl h
      · exact Or.inr (Option.some.inj h).symm
    · split at h <;> exact Or.inl h
  | poll cycles =>
    simp only [follow, pass] at h
    split at h
    · exact Or.inl h
    · split at h
      · exact Or.inl h
      · simp at h
  | _ => exact Or.inl h

theorem settled_follow (h : t.Settled ∨ settles op = true) :
    (t.follow now delay op).Settled := by
  cases op with
  | reset => exact Or.inl rfl
  | write address value =>
    simp only [follow]
    split
    · exact Or.inr (Option.isSome_or.trans (Bool.or_true _))
    · next haddress =>
      split
      · exact Or.inl rfl
      · next hvalue => simpa [settles, haddress, hvalue] using h
  | poll cycles =>
    have h : t.Settled := by simpa [settles] using h
    simp only [follow, pass]
    split
    · exact h
    · split
      · exact h
      · exact Or.inl rfl
  | _ => exact h.resolve_right (by simp [settles])

end

end Acia.Transmitter

namespace Board

open Acia (Transmitter)

variable {ρ : Type}

theorem transmitter_routed (a : Acia ρ) (u : SerialUla) :
    (a.routed u).transmitter = a.transmitter := by
  unfold Acia.routed
  rw [Acia.transmitter_selected, Acia.transmitter_switched, Acia.transmitter_rated]

variable [Acia.SerialPeer ρ]

theorem transmitter_poll {a a' : Acia ρ} (h : a.Sound) {cycles : Cycles} {e : Option Tape.Error}
    (hpoll : a.poll cycles = .ok (e, a')) :
    a'.transmitter = a.transmitter.pass (a.now + cycles) := by
  obtain ⟨timers, chip, hadv, -, ha⟩ := Acia.Sound.poll_ok hpoll
  have hpass := Acia.transmitter_advance h.timed hadv
  rw [ha]
  exact hpass

/-- Every operation is to the transmitter a reset, a written byte, the passing of time, or
nothing. -/
theorem perform_transmitter {b b' : Board ρ} (hb : b.Reachable) {op : Operation ρ} {reply : Reply}
    (h : b.perform op = .ok (reply, b')) :
    b'.acia.transmitter = b.acia.transmitter.follow b.acia.now b.acia.transmitDelay op := by
  rcases perform_cases h with ⟨cycles, e, rfl, hpoll, -⟩ | hop
  · exact transmitter_poll hb.sound hpoll
  · rw [perform_outcome hb.sound hb.transmitDelay_ne_zero h hop]
    cases op with
    | poll cycles => exact absurd rfl (hop cycles)
    | read address => exact Acia.transmitter_read _ address
    | write address value => exact Acia.transmitter_written _ address value
    | selectRs423 selected => exact Acia.transmitter_selected _ selected
    | setCarrier level =>
      exact Acia.transmitter_onChip _ (·.setCarrier level) (by rw [Acia.standing_setCarrier])
    | switchMotor on => exact Acia.transmitter_switched _ on
    | setReceiveRate rate => exact Acia.transmitter_rated _ rate
    | insert data clock => exact Acia.transmitter_opened _ _
    | eject => exact Acia.transmitter_unloaded _
    | reinsert =>
      exact outcome_reinsert (P := (·.transmitter = b.acia.transmitter)) rfl
        (Acia.transmitter_loaded _)
    | rewind => exact Acia.transmitter_rewind _
    | ulaWrite value => exact transmitter_routed _ _
    | ulaRead => exact transmitter_routed _ _
    | reset | receive | ulaReset | attachPeer | attachTone | attachNoise => rfl

/-! ### The deadline -/

/-- A transmission that has begun does not take longer than one that begins. -/
theorem Reachable.due_le {b : Board ρ} (hb : b.Reachable) {due : Cycles}
    (hdue : b.acia.transmitter.due? = some due) :
    due.count ≤ b.acia.now.count + b.acia.transmitDelay.count := by
  induction hb generalizing due with
  | start h =>
    obtain ⟨-, -, hacia⟩ := ofConfig_eq h
    rw [hacia] at hdue
    -- a new board has nothing on its agenda
    exact absurd hdue (by simp [Acia.transmitter, Transmitter.of, Acia.Timer.due?,
      Scheduler.occurrence?, Acia.Timer.all, Scheduler.register])
  | perform hb h ih =>
    rw [perform_transmitter hb h] at hdue
    have hnow := perform_now_le hb.sound h
    rw [perform_transmitDelay h]
    rcases Transmitter.due?_follow hdue with hdue | rfl
    · have hle := ih hdue
      omega
    · rw [Cycles.count_add]
      omega
  | shelve _ _ ih => exact ih hdue

theorem Reachable.deadline_le {b : Board ρ} (hb : b.Reachable) :
    b.acia.deadline.count ≤ b.acia.now.count + b.acia.transmitDelay.count := by
  unfold Acia.deadline
  cases hdue : Acia.Timer.transmit.due? b.acia.timers with
  | none =>
    rw [Option.getD_none, Cycles.count_add]
    omega
  | some due => exact hb.due_le hdue

/-- The operation asks for a master reset only when nothing is being sent, and writes a byte only
when the transmit register is empty. -/
def Careful (b : Board ρ) : Operation ρ → Prop
  | .reset => b.acia.transmitter.due? = none
  | .write address value =>
    if Acia.isData address then b.acia.chip.status.transmitEmpty = true
    else Acia.Control.isReset value = true → b.acia.transmitter.due? = none
  | _ => True

/-- After a byte has been written the register is full, and the timer pending for the deadline. -/
theorem transmitter_write {b b' : Board ρ} (hb : b.Reachable) {address : UInt16} {value : UInt8}
    (haddress : Acia.isData address = true) {reply : Reply}
    (hwrite : b.perform (.write address value) = .ok (reply, b')) :
    b'.acia.transmitter = ⟨false, some b.acia.deadline⟩ := by
  rw [perform_transmitter hb hwrite]
  simp only [Transmitter.follow]
  rw [if_pos haddress]
  change Transmitter.mk false ((Acia.Timer.transmit.due? b.acia.timers).or _) = _
  unfold Acia.deadline
  cases Acia.Timer.transmit.due? b.acia.timers <;> rfl

/-- A careful program leaves a transmission alone until its deadline. -/
theorem Course.sending {b b' : Board ρ} (hb : b.Reachable) (h : Course Careful b b')
    {due : Cycles} (hsending : b.acia.transmitter = ⟨false, some due⟩)
    (hbefore : b'.acia.now.count < due.count) : b'.acia.transmitter = ⟨false, some due⟩ := by
  induction h with
  | refl => exact hsending
  | @perform b₁ b₂ h op reply hop hperform ih =>
    have hb₁ := h.reachable hb
    have hnow := perform_now_le hb₁.sound hperform
    have hsending := ih (Nat.lt_of_le_of_lt hnow hbefore)
    have hnot : b₁.acia.transmitter.due? ≠ none := by rw [hsending]; simp
    rw [perform_transmitter hb₁ hperform, hsending]
    cases op with
    | reset => exact absurd hop hnot
    | write address value =>
      simp only [Careful] at hop
      simp only [Transmitter.follow]
      split at hop
      · -- the register is full, so nothing is written
        have hfull : b₁.acia.chip.status.transmitEmpty = false := congrArg (·.empty) hsending
        rw [hfull] at hop
        simp at hop
      · next haddress => rw [if_neg haddress, if_neg fun hvalue => hnot (hop hvalue)]
    | poll cycles =>
      simp only [Transmitter.follow]
      refine Transmitter.pass_of_lt fun later hlater => ?_
      have hclock : b₂.acia.now = b₁.acia.now + cycles := perform_now hb₁.sound hperform
      rw [← Option.some.inj hlater, ← hclock]
      exact hbefore
    | _ => rfl
  | shelve _ _ ih => exact ih hbefore

/-- From a time when nothing is being sent, the timer of a careful program is pending only while
the register is full. -/
theorem Course.full_of_pending {b b' : Board ρ} (hb : b.Reachable) (h : Course Careful b b')
    (hidle : b.acia.transmitter.due? = none) :
    b'.acia.transmitter.due? = none ∨ b'.acia.transmitter.empty = false := by
  induction h with
  | refl => exact Or.inl hidle
  | @perform b₁ b₂ h op reply hop hperform ih =>
    rw [perform_transmitter (h.reachable hb) hperform]
    cases op with
    | reset => exact Or.inl hop
    | write address value =>
      simp only [Careful] at hop
      simp only [Transmitter.follow]
      split at hop
      · next haddress =>
        rw [if_pos haddress]
        exact Or.inr rfl
      · next haddress =>
        rw [if_neg haddress]
        split
        · next hvalue => exact Or.inl (hop hvalue)
        · exact ih
    | poll cycles =>
      -- a poll that comes to the deadline leaves nothing pending
      simp only [Transmitter.follow, Transmitter.pass]
      split
      · exact ih
      · split
        · exact ih
        · exact Or.inl rfl
    | _ => exact ih
  | shelve _ _ ih => exact ih

/-- Then a byte that is written into the empty register takes as long as a transmission does. -/
theorem Course.deadline_eq {b b' : Board ρ} (hb : b.Reachable) (h : Course Careful b b')
    (hidle : b.acia.transmitter.due? = none) (hempty : b'.acia.chip.status.transmitEmpty = true) :
    b'.acia.deadline = b'.acia.now + b'.acia.transmitDelay := by
  rcases h.full_of_pending hb hidle with hnone | hfull
  · unfold Acia.deadline
    rw [show Acia.Timer.transmit.due? b'.acia.timers = none from hnone]
    rfl
  · rw [show b'.acia.chip.status.transmitEmpty = false from hfull] at hempty
    simp at hempty

/-- **The transmit register is full up to the deadline and empty from then on.**  A program can
always write a byte, and while it is careful afterwards, the register is full on every cycle
before the deadline of the byte, and a poll finds it empty exactly if it comes to the deadline.
That is never later than a transmission takes, and as long after the write as one takes if the
program has been careful before, from a time when nothing was being sent. -/
theorem Reachable.sends {b : Board ρ} (hb : b.Reachable) (address : UInt16) (value : UInt8)
    (haddress : Acia.isData address = true) :
    ∃ reply b₁, b.perform (.write address value) = .ok (reply, b₁) ∧
      (∀ {b₂ : Board ρ}, Course Careful b₁ b₂ → b₂.acia.now.count < b.acia.deadline.count →
        b₂.acia.chip.status.transmitEmpty = false ∧
        ∀ {cycles : Cycles}, b₂.acia.now.count + cycles.count < Cycles.last.count →
          ∃ reply b₃, b₂.perform (.poll cycles) = .ok (reply, b₃) ∧
            (b₃.acia.chip.status.transmitEmpty = true ↔
              b.acia.deadline.count ≤ b₂.acia.now.count + cycles.count)) ∧
      b.acia.deadline.count ≤ b.acia.now.count + b.acia.transmitDelay.count ∧
      ∀ {b₀ : Board ρ}, b₀.Reachable → b₀.acia.transmitter.due? = none → Course Careful b₀ b →
        b.acia.chip.status.transmitEmpty = true →
        b.acia.deadline = b.acia.now + b.acia.transmitDelay := by
  obtain ⟨reply, b₁, hwrite⟩ :=
    hb.exists_perform (.write address value) (by simp) (by simp)
  refine ⟨reply, b₁, hwrite, fun {b₂} hcourse hbefore => ?_, hb.deadline_le,
    fun hb₀ hidle hcourse₀ hempty => hcourse₀.deadline_eq hb₀ hidle hempty⟩
  have hb₁ := hb.perform hwrite
  have hb₂ := hcourse.reachable hb₁
  have hsending := hcourse.sending hb₁ (transmitter_write hb haddress hwrite) hbefore
  refine ⟨congrArg (·.empty) hsending, fun {cycles} hend => ?_⟩
  obtain ⟨reply, b₃, hpoll⟩ := hb₂.exists_perform (.poll cycles) (by simp)
    fun _ heq => (Operation.poll.inj heq) ▸ hend
  refine ⟨reply, b₃, hpoll, ?_⟩
  have hempty : b₃.acia.chip.status.transmitEmpty
      = (Transmitter.pass ⟨false, some b.acia.deadline⟩ (b₂.acia.now + cycles)).empty := by
    rw [← hsending]
    exact congrArg (·.empty) (perform_transmitter hb₂ hpoll)
  -- below the end of time the clock is not cut off
  have hclock : (b₂.acia.now + cycles).count = b₂.acia.now.count + cycles.count := by
    rw [Cycles.count_add]
    rw [Cycles.count_last] at hend
    omega
  rw [hempty, ← hclock]
  by_cases hdue : b₂.acia.now + cycles < b.acia.deadline
  · rw [Transmitter.pass_of_lt fun due heq => Option.some.inj heq ▸ hdue]
    exact iff_of_false Bool.false_ne_true (Nat.not_le_of_lt hdue)
  · rw [Transmitter.pass_of_due rfl hdue]
    exact iff_of_true rfl (Nat.le_of_not_lt hdue)

/-- A board with a transmission that a reset has interrupted. -/
def interrupted : Board Unit := plain.after [.reset, .write 1 0x41, .poll 500, .reset]

/-- A byte that is written then is on its way for 1499 cycles, but not for 2000. -/
theorem sends_interrupted :
    ∃ (b₁ b₂ b₃ : Board Unit) (reply₁ reply₂ reply₃ : Reply), interrupted.Reachable ∧
      Acia.isData 1 = true ∧ interrupted.perform (.write 1 0x42) = .ok (reply₁, b₁) ∧
      b₁.perform (.poll 1499) = .ok (reply₂, b₂) ∧ Course Careful b₁ b₂ ∧
      b₂.acia.now.count < interrupted.acia.deadline.count ∧
      b₂.acia.chip.status.transmitEmpty = false ∧
      b₂.acia.now.count + (501 : Cycles).count < Cycles.last.count ∧
      b₂.perform (.poll 501) = .ok (reply₃, b₃) ∧
      (b₃.acia.chip.status.transmitEmpty = true ↔
        interrupted.acia.deadline.count ≤ b₂.acia.now.count + (501 : Cycles).count) := by
  have hreachable : interrupted.Reachable := reachable_plain.after _
  obtain ⟨reply₁, b₁, hwrite, hsends, -⟩ := hreachable.sends 1 0x42 rfl
  obtain ⟨reply, hwritten⟩ := perform_after interrupted (.write 1 0x42) (by decide +kernel)
  obtain ⟨rfl, rfl⟩ := Prod.mk.inj (Except.ok.inj (hwrite.symm.trans hwritten))
  obtain ⟨reply₂, hpoll⟩ := perform_after (interrupted.after [.write 1 0x42]) (.poll 1499)
    (by decide +kernel)
  have hcareful : Careful (interrupted.after [.write 1 0x42]) (.poll 1499) := trivial
  have hcourse := Course.refl.perform hcareful hpoll
  have hbefore : ((interrupted.after [.write 1 0x42]).after [.poll 1499]).acia.now.count
      < interrupted.acia.deadline.count := by decide +kernel
  have hend : ((interrupted.after [.write 1 0x42]).after [.poll 1499]).acia.now.count
      + (501 : Cycles).count < Cycles.last.count := by decide +kernel
  obtain ⟨hfull, hpolled⟩ := hsends hcourse hbefore
  obtain ⟨reply₃, b₃, hlast, hempty⟩ := hpolled hend
  exact ⟨_, _, b₃, reply₁, reply₂, reply₃, hreachable, rfl, hwrite, hpoll, hcourse, hbefore, hfull,
    hend, hlast, hempty⟩

/-- The register may become empty before a transmission's time has passed, although the program
has written only when it was empty: a reset comes between two bytes. -/
theorem empty_before_transmitDelay :
    ∃ b₀ b b₁ b₂ : Board Unit,
      plain.run [.reset] = .ok ([.none], b₀) ∧ b₀.acia.chip.status.transmitEmpty = true ∧
      b₀.run [.write 1 0x41, .poll 500, .reset] = .ok ([.none, .none, .none], b) ∧
      b.acia.chip.status.transmitEmpty = true ∧
      b.run [.write 1 0x42] = .ok ([.none], b₁) ∧ b₁.run [.poll 1500] = .ok ([.none], b₂) ∧
      b₂.acia.now.count < b.acia.now.count + b.acia.transmitDelay.count ∧
      b₂.acia.chip.status.transmitEmpty = true := by
  refine ⟨_, _, _, _, rfl, rfl, rfl, rfl, rfl, rfl, ?_, ?_⟩
  · decide +kernel
  · decide +kernel

end Board

end Cassette
