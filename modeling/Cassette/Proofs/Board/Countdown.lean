import Cassette.Proofs.Board.Unsent

/-!
# The transmitter counts down

The transmit timer is kept as a due cycle among those of the other timers, but to whoever looks at
it, it is a register that counts down while time passes, and nothing that shares the scheduler
with it has a part in that.  Nor does it have a part in anything else: bytes that are written while
the cassette is selected can come and go in a history, and only the transmitter shows it.

## Main definitions

* `Countdown` and `Countdown.follow` — the register that counts down.
* `unsent` — a history without the bytes that are written while the cassette is selected.
* `Reply.veiled` — an answer without the transmit register.
* `Board.Agree` — two boards that differ in their transmitters alone.

## Main results

* `run_countdown` — a history is to the transmit timer what it is to the countdown.
* `agree_perform`, `agree_run` — boards that agree go on to agree, with or without the bytes.
* `Reachable.counts_down` — **the transmit timer is a countdown that nothing else sees**.
-/

namespace Cassette

open Acia (Timer Transmitter)

/-- The transmit register, and a count of the cycles until it is empty. -/
structure Countdown where
  empty : Bool
  remaining : Nat
  deriving DecidableEq

namespace Countdown

variable {ρ : Type}

/-- What an operation is to the countdown, which starts at `delay`. -/
def follow (delay : Nat) (t : Countdown) : Board.Operation ρ → Countdown
  | .poll cycles =>
    ⟨t.empty || decide (0 < t.remaining ∧ t.remaining ≤ cycles.count), t.remaining - cycles.count⟩
  | .write address value =>
    if Acia.isData address then ⟨false, if t.remaining = 0 then delay else t.remaining⟩
    else if Acia.Control.isReset value then { t with empty := true } else t
  | .reset => { t with empty := true }
  | _ => t

end Countdown

namespace Acia.Transmitter

variable {ρ : Type}

/-- The countdown that a transmitter shows on cycle `now`. -/
def countdown (t : Transmitter) (now : Cycles) : Countdown :=
  ⟨t.empty, t.due?.elim 0 (·.count - now.count)⟩

theorem remaining_pos {t : Transmitter} {now : Cycles}
    (hlater : ∀ due ∈ t.due?, now.count < due.count) :
    0 < (t.countdown now).remaining ↔ t.due?.isSome = true := by
  obtain ⟨empty, due?⟩ := t
  cases due? with
  | none => simp [countdown]
  | some due =>
    have hlater : now.count < due.count := hlater due rfl
    exact iff_of_true (Nat.sub_pos_of_lt hlater) rfl

/-- As long as nothing is overdue, an operation is to the countdown what it is to the
transmitter. -/
theorem countdown_follow {t : Transmitter} {now delay : Cycles} {op : Board.Operation ρ}
    (hlater : ∀ due ∈ t.due?, now.count < due.count)
    (hend : now.count + delay.count + op.elapsed < Cycles.last.count) :
    (t.follow now delay op).countdown (op.clock now)
      = (t.countdown now).follow delay.count op := by
  obtain ⟨empty, due?⟩ := t
  rw [Cycles.count_last] at hend
  cases op with
  | poll cycles =>
    have hend : now.count + delay.count + cycles.count < 0xFFFFFFFFFFFFFFFF := hend
    have htarget : (now + cycles).count = now.count + cycles.count := by
      rw [Cycles.count_add]
      omega
    simp only [follow, Board.Operation.clock, Countdown.follow, countdown]
    cases due? with
    | none => simp [pass]
    | some due =>
      have hlater : now.count < due.count := hlater due rfl
      by_cases hdue : now + cycles < due
      · rw [pass_of_lt fun later hlater => Option.some.inj hlater ▸ hdue]
        rw [Cycles.lt_iff, htarget] at hdue
        have hcounts : ¬ (0 < due.count - now.count ∧ due.count - now.count ≤ cycles.count) := by
          omega
        simp only [Option.elim_some, htarget, Countdown.mk.injEq, hcounts, decide_false,
          Bool.or_false, true_and]
        omega
      · rw [pass_of_due rfl hdue]
        rw [Cycles.lt_iff, htarget] at hdue
        have hcounts : 0 < due.count - now.count ∧ due.count - now.count ≤ cycles.count := by
          omega
        simp only [Option.elim_some, Option.elim_none, Countdown.mk.injEq, hcounts, and_self,
          decide_true, Bool.or_true, true_and]
        omega
  | write address value =>
    simp only [follow, Board.Operation.clock, Countdown.follow]
    split
    · cases due? with
      | none =>
        have hcount : (now + delay).count - now.count = delay.count := by
          rw [Cycles.count_add]
          omega
        exact congrArg (Countdown.mk false) hcount
      | some due =>
        have hlater : now.count < due.count := hlater due rfl
        have hleft : due.count - now.count ≠ 0 := by omega
        exact congrArg (Countdown.mk false) (if_neg hleft).symm
    · split <;> rfl
  | _ => rfl

end Acia.Transmitter

namespace Board

variable {ρ : Type}

/-! ### Counting down -/

/-- The transmit register and the time until it is empty, as the machine is told them. -/
def countdown (b : Board ρ) : Countdown :=
  ⟨b.acia.chip.status.transmitEmpty, b.acia.transmitRemaining.count⟩

theorem countdown_eq (b : Board ρ) : b.countdown = b.acia.transmitter.countdown b.acia.now := by
  unfold countdown
  rw [Acia.transmitRemaining_eq]
  change Countdown.mk _ _ = Countdown.mk _ ((Timer.transmit.due? b.acia.timers).elim 0 _)
  cases Timer.transmit.due? b.acia.timers <;> rfl

variable [Acia.SerialPeer ρ]

/-- Below the end of time the transmit timer is pending for a later cycle, if it is. -/
theorem Reachable.transmit_later {b : Board ρ} (hb : b.Reachable)
    (hend : b.acia.now.count < Cycles.last.count) :
    ∀ due ∈ b.acia.transmitter.due?, b.acia.now.count < due.count := by
  intro due hdue
  obtain ⟨e, he, rfl⟩ := Timer.exists_entry hdue
  exact hb.later hend e he

/-- The transmit timer is pending exactly while there is time left. -/
theorem Reachable.isArmed_transmit {b : Board ρ} (hb : b.Reachable)
    (hend : b.acia.now.count < Cycles.last.count) :
    b.acia.timers.isArmed Timer.transmit.id = .ok (decide (0 < b.countdown.remaining)) := by
  have hpending := Transmitter.remaining_pos (hb.transmit_later hend)
  rw [Acia.isArmed_eq hb.sound.timed.bodies, countdown_eq]
  exact congrArg Except.ok (Bool.eq_iff_iff.mpr (hpending.symm.trans decide_eq_true_iff.symm))

/-- A history is to the transmit timer what it is to the countdown. -/
theorem run_countdown {b b' : Board ρ} (hb : b.Reachable) {ops : List (Operation ρ)}
    (hend : b.acia.now.count + b.acia.transmitDelay.count + elapsed ops < Cycles.last.count)
    {replies : List Reply} (hrun : b.run ops = .ok (replies, b')) :
    b'.countdown = ops.foldl (Countdown.follow b.acia.transmitDelay.count) b.countdown := by
  induction ops generalizing b replies with
  | nil =>
    obtain ⟨-, rfl⟩ := Prod.mk.inj (Except.ok.inj hrun)
    rfl
  | cons op ops ih =>
    rw [elapsed] at hend
    obtain ⟨reply, rest, b₁, hperform, hrest, -⟩ := run_cons_iff.mp hrun
    have hclock := perform_now hb.sound hperform
    have hdelay := perform_transmitDelay hperform
    have hnow : b₁.acia.now.count = b.acia.now.count + op.elapsed := by
      rw [hclock]
      exact Operation.count_clock (by omega)
    have hstep : b₁.countdown = b.countdown.follow b.acia.transmitDelay.count op := by
      rw [countdown_eq, perform_transmitter hb hperform, hclock,
        Transmitter.countdown_follow (hb.transmit_later (by omega)) (by omega), countdown_eq]
    rw [ih (hb.perform hperform) (by rw [hdelay]; omega) hrest, hdelay, hstep]
    rfl

/-! ### Nothing else counts on it -/

/-- **The transmit timer is a countdown that nothing else sees.**  From every state of a board a
history that stays a transmit delay below the end of time is to the transmit register and the time
left what it is to the countdown, whatever the tape, the line and the other operations do, and the
timer is pending exactly while there is time left.  Another history that differs only in bytes
which are written while the cassette is selected comes to the same chip with the same trace, but
for the transmit register, with the same other timers pending in the same order; and but for the
transmit register it is answered the same. -/
theorem Reachable.counts_down {b : Board ρ} (hb : b.Reachable) {ops : List (Operation ρ)}
    (hrate : ∀ op ∈ ops, op ≠ .setReceiveRate 0) :
    (b.acia.now.count + b.acia.transmitDelay.count + elapsed ops < Cycles.last.count →
      ∃ replies b', b.run ops = .ok (replies, b') ∧
        b'.countdown = ops.foldl (Countdown.follow b.acia.transmitDelay.count) b.countdown ∧
        b'.acia.timers.isArmed Timer.transmit.id = .ok (decide (0 < b'.countdown.remaining))) ∧
    (b.acia.now.count + elapsed ops < Cycles.last.count →
      ∀ ops', unsent id b.acia.chip.rs423Selected ops' = unsent id b.acia.chip.rs423Selected ops →
        ∃ replies b₁ replies' b₂, b.run ops = .ok (replies, b₁) ∧
          b.run ops' = .ok (replies', b₂) ∧
          b₂.acia.chip.fill = b₁.acia.chip.fill ∧
          Timer.others b₂.acia.timers = Timer.others b₁.acia.timers ∧
          b₂.acia.now = b₁.acia.now ∧ b₂.ula = b₁.ula ∧ b₂.shelf = b₁.shelf ∧
          answers b.acia.chip.rs423Selected ops' replies'
            = answers b.acia.chip.rs423Selected ops replies) := by
  constructor
  · intro hend
    obtain ⟨replies, b', hrun, -, hnow⟩ := hb.exists_run hrate (by omega)
    exact ⟨replies, b', hrun, run_countdown hb hend hrun,
      (hb.run hrun).isArmed_transmit (by omega)⟩
  · intro hend ops' hsame
    have hsends (op : Operation ρ) (hop : op.sends = true) : op ≠ .setReceiveRate 0 := by
      rintro rfl
      simp [Operation.sends] at hop
    -- what is left of both without the bytes has as many cycles to pass as they have
    have hleft := (forall_unsent hsends b.acia.chip.rs423Selected ops).mpr hrate
    have hrate' := (forall_unsent hsends b.acia.chip.rs423Selected ops').mp (hsame ▸ hleft)
    have helapsed := elapsed_unsent b.acia.chip.rs423Selected ops
    have helapsed' : elapsed ops' = elapsed ops := by
      rw [← elapsed_unsent b.acia.chip.rs423Selected ops', hsame, helapsed]
    obtain ⟨replies, b₁, hrun, -⟩ := hb.exists_run hrate hend
    obtain ⟨replies', b₂, hrun', -⟩ := hb.exists_run hrate' (by rw [helapsed']; exact hend)
    obtain ⟨_, b₀, hrun₀, -⟩ := hb.exists_run hleft (by rw [helapsed]; exact hend)
    obtain ⟨hagree, hanswers⟩ := agree_run hb hb hb.agree_refl rfl hrun hrun₀
    obtain ⟨hagree', hanswers'⟩ := agree_run hb hb hb.agree_refl hsame hrun' hrun₀
    have hboth := hagree'.trans hagree.symm
    exact ⟨replies, b₁, replies', b₂, hrun, hrun', hboth.acia.chip, hboth.acia.others,
      hboth.acia.now, hboth.ula, hboth.shelf, hanswers'.trans hanswers.symm⟩

/-- A board that plays a tape from its beginning. -/
def tuned : Board Unit := playing.after [.rewind, .selectRs423 false]

/-- A program that turns to RS423 to send a byte. -/
def passing : List (Operation Unit) :=
  [.poll 600, .selectRs423 true, .write 1 0x42, .poll 1000, .selectRs423 false, .poll 900, .read 0,
    .read 1]

/-- With a byte that has been written in vain before, the transmit register is empty when it would
still be full for 100 cycles, and there is no other difference. -/
theorem counts_down_tuned :
    ∃ (replies replies' : List Reply) (b₁ b₂ : Board Unit), tuned.Reachable ∧
      (∀ op ∈ passing, op ≠ .setReceiveRate 0) ∧
      tuned.acia.now.count + tuned.acia.transmitDelay.count + elapsed passing
        < Cycles.last.count ∧
      unsent id tuned.acia.chip.rs423Selected (.write 1 0x41 :: passing)
        = unsent id tuned.acia.chip.rs423Selected passing ∧
      tuned.run passing = .ok (replies, b₁) ∧
      tuned.run (.write 1 0x41 :: passing) = .ok (replies', b₂) ∧
      b₁.countdown = ⟨false, 100⟩ ∧ b₂.countdown = ⟨true, 0⟩ ∧
      b₁.countdown = passing.foldl (Countdown.follow tuned.acia.transmitDelay.count)
        tuned.countdown ∧
      b₁.acia.timers.isArmed Timer.transmit.id = .ok (decide (0 < b₁.countdown.remaining)) ∧
      b₁.acia.timers.pending = 2 ∧ b₂.acia.timers.pending = 1 ∧
      b₂.acia.chip.fill = b₁.acia.chip.fill ∧
      Timer.others b₂.acia.timers = Timer.others b₁.acia.timers ∧
      b₂.acia.now = b₁.acia.now ∧ b₂.ula = b₁.ula ∧ b₂.shelf = b₁.shelf ∧
      answers tuned.acia.chip.rs423Selected (.write 1 0x41 :: passing) replies'
        = answers tuned.acia.chip.rs423Selected passing replies := by
  have htuned : tuned.Reachable := ((reachable_plain.shelve _).after _).after _
  have hcassette : tuned.acia.chip.rs423Selected = false := by decide +kernel
  have hrate : ∀ op ∈ passing, op ≠ .setReceiveRate 0 := by
    intro op hop
    simp only [passing, List.mem_cons, List.not_mem_nil, or_false] at hop
    rcases hop with rfl | rfl | rfl | rfl | rfl | rfl | rfl | rfl <;> simp
  have hend : tuned.acia.now.count + tuned.acia.transmitDelay.count + elapsed passing
      < Cycles.last.count := by
    decide +kernel
  have hsame := unsent_insert (w := .write 1 0x41) rfl [] passing hcassette
  obtain ⟨hcounts, hrest⟩ := htuned.counts_down hrate
  obtain ⟨replies, b₁, hrun, hcountdown, harmed⟩ := hcounts hend
  obtain ⟨_, _, replies', b₂, hrun₁, hrun', hagree⟩ := hrest (by omega) _ hsame
  obtain ⟨rfl, rfl⟩ := Prod.mk.inj (Except.ok.inj (hrun.symm.trans hrun₁))
  obtain ⟨_, hafter⟩ := run_after tuned passing (by decide +kernel)
  obtain ⟨_, hafter'⟩ := run_after tuned (.write 1 0x41 :: passing) (by decide +kernel)
  obtain ⟨-, rfl⟩ := Prod.mk.inj (Except.ok.inj (hafter.symm.trans hrun))
  obtain ⟨-, rfl⟩ := Prod.mk.inj (Except.ok.inj (hafter'.symm.trans hrun'))
  exact ⟨replies, replies', _, _, htuned, hrate, hend, hsame, hrun, hrun', by decide +kernel,
    by decide +kernel, hcountdown, harmed, by decide +kernel, by decide +kernel, hagree⟩

end Board

end Cassette
