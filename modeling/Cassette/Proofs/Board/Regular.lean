import Cassette.Proofs.Acia.Divider
import Cassette.Proofs.Acia.Wiring
import Cassette.Proofs.Board.Transmission

/-!
# The state of a board

What can be told of the chip, its deck and its timers in every state of a board.  The timers are
wired to the chip, nothing is overdue, no tape error waits to be reported, and no tape has ever
been played without a divider.  Once the transmit register has been written or reset, it is empty
or becomes so within a transmit delay.

## Main definitions

* `Acia.Regular` — what can be told of the chip.

## Main results

* `wired_outcome`, `divided_outcome` — what the operations keep.
* `Reachable.wired`, `Reachable.divided`, `Reachable.later` — the parts of it.
* `Course.settled` — the transmit register is empty or about to become so.
* `Reachable.regular` — **every state of a board is regular**.
-/

namespace Cassette

namespace Acia

variable {ρ : Type}

/-- What can be told of the chip, its deck and its timers. -/
structure Regular (a : Acia ρ) : Prop where
  /-- The tape's timer is pending exactly while the motor runs with a tape in the deck. -/
  tape : a.timers.isArmed Timer.tape.id = .ok (a.chip.motorOn && a.chip.deck.isSome)
  /-- The line's timer is pending exactly while RS423 is selected. -/
  rs423 : a.timers.isArmed Timer.rs423.id = .ok a.chip.rs423Selected
  /-- Sending is held exactly while RS423 is selected. -/
  held : a.chip.status.sendHeld = a.chip.rs423Selected
  /-- The status register shows that in bit 3. -/
  heldBit : a.chip.status.byte.toNat.testBit 3 = a.chip.rs423Selected
  /-- Bits 4 to 6 of the status register are clear. -/
  clearBits : ∀ bit, 4 ≤ bit → bit ≤ 6 → a.chip.status.byte.toNat.testBit bit = false
  /-- The low two bits of the control register are never both set. -/
  control : Control.isReset a.chip.control = false
  /-- No byte has been played without a divider. -/
  divided : ∀ m ∈ a.chip.trace, ∀ control, m.event ≠ .signal (.note (.invalidDivider control))
  /-- No tape error is left to report. -/
  reported : a.chip.deckError = none
  rate : 0 < a.chip.receiveRate
  /-- Every pending timer fires on a later cycle. -/
  later : ∀ e ∈ a.timers.agenda, a.now < e.due

/-! ### The status register -/

theorem testBit_status (s : Status) :
    s.byte.toNat.testBit 3 = s.sendHeld ∧
      ∀ bit, 4 ≤ bit → bit ≤ 6 → s.byte.toNat.testBit bit = false := by
  have hbits : s.byte.toNat.testBit 3 = s.sendHeld ∧ s.byte.toNat.testBit 4 = false ∧
      s.byte.toNat.testBit 5 = false ∧ s.byte.toNat.testBit 6 = false := by
    -- five bits make up the register
    obtain ⟨receiveFull, transmitEmpty, carrier, sendHeld, interrupt⟩ := s
    revert receiveFull transmitEmpty carrier sendHeld interrupt
    decide
  refine ⟨hbits.1, fun bit hlow hhigh => ?_⟩
  obtain rfl | rfl | rfl : bit = 4 ∨ bit = 5 ∨ bit = 6 := by omega
  · exact hbits.2.1
  · exact hbits.2.2.1
  · exact hbits.2.2.2

/-! ### The agenda -/

theorem isArmed_eq {a : Acia ρ} (h : a.InPlace) (timer : Timer) :
    a.timers.isArmed timer.id = .ok (timer.due? a.timers).isSome := by
  unfold Scheduler.isArmed Timer.due?
  rw [if_pos (Timer.owns_id h timer), Option.isSome_map]

theorem transmitRemaining_eq (a : Acia ρ) :
    a.transmitRemaining = (Timer.transmit.due? a.timers).elim 0 (· - a.now) := by
  unfold transmitRemaining Timer.due?
  cases a.timers.occurrence? Timer.transmit.id <;> rfl

/-- Below the end of time a small step arms nothing for the present cycle. -/
theorem Steps.later {a b : Acia ρ} (h : Steps a b) (hend : a.now.count < Cycles.last.count)
    (hlater : ∀ e ∈ a.timers.agenda, a.now < e.due) : ∀ e ∈ b.timers.agenda, b.now < e.due := by
  induction h with
  | refl => exact hlater
  | chip _ f _ ih => exact ih
  | @command b b' h c hc ih =>
    obtain ⟨timers, happly, rfl⟩ := command_eq hc
    rw [← h.now] at hend
    change ∀ e ∈ timers.agenda, timers.epoch < e.due
    rw [Scheduler.epoch_of_apply happly]
    -- a command leaves the agenda alone, takes an entry off it or arms for a later cycle
    rcases Scheduler.apply_cases happly with rfl | ⟨task, rfl⟩ | ⟨task, delay, -, hdelay, rfl⟩
    · exact ih
    · exact fun e he => ih e (Scheduler.mem_agenda_dismiss.mp he).1
    · intro e he
      rcases Scheduler.mem_enter.mp he with rfl | he
      · exact Scheduler.count_lt_add hdelay hend
      · exact ih e (Scheduler.mem_agenda_dismiss.mp he).1

end Acia

namespace Board

variable {ρ : Type} [Acia.SerialPeer ρ]

open Acia (Transmitter)

/-! ### The parts -/

theorem Reachable.later {b : Board ρ} (hb : b.Reachable)
    (hend : b.acia.now.count < Cycles.last.count) :
    ∀ e ∈ b.acia.timers.agenda, b.acia.now < e.due := by
  induction hb with
  | start h =>
    obtain ⟨-, -, hacia⟩ := ofConfig_eq h
    rw [hacia]
    intro e he
    simp [Acia.Timer.all, Scheduler.register] at he
  | @perform b b' hb op reply h ih =>
    rcases perform_cases h with ⟨cycles, e, rfl, hpoll, -⟩ | hop
    · obtain ⟨timers, chip, hadv, -, ha⟩ := Acia.Sound.poll_ok hpoll
      obtain ⟨-, hepoch, hlater⟩ := hb.sound.timed.of_advance hadv
      rw [ha]
      intro e he
      change timers.epoch.count < e.due.count
      rw [hepoch]
      exact hlater e he
    · have hnow := perform_now_le hb.sound h
      have hend₀ := Nat.lt_of_le_of_lt hnow hend
      exact (perform_steps h hop).1.later hend₀ (ih hend₀)
  | shelve _ _ ih => exact ih hend

/-- Every operation keeps the timers wired. -/
theorem wired_outcome {b : Board ρ} (h : b.acia.IsWired) (op : Operation ρ) :
    (b.outcome op).IsWired := by
  cases op with
  | read address => exact h.read address
  | write address value => exact h.written address value
  | reset => exact h.reset
  | selectRs423 selected => exact h.selected selected
  | setCarrier level => exact h.onChip (·.setCarrier level) (Acia.standing_setCarrier _ _) rfl
  | switchMotor on => exact h.switched on
  | setReceiveRate rate => exact h.rated rate
  | insert data clock => exact h.opened _
  | eject => exact h.unloaded
  | reinsert => exact outcome_reinsert h h.loaded
  | rewind => exact h.rewind
  | ulaWrite value => exact ((h.rated _).switched _).selected _
  | ulaRead => exact ((h.rated _).switched _).selected _
  | receive | poll | ulaReset | attachPeer | attachTone | attachNoise => exact h

theorem Reachable.wired {b : Board ρ} (hb : b.Reachable) : b.acia.IsWired := by
  induction hb with
  | start h =>
    obtain ⟨-, hrate, hacia⟩ := ofConfig_eq h
    rw [hacia]
    exact ⟨rfl, rfl, rfl, rfl, hrate⟩
  | perform hb h ih =>
    rcases perform_cases h with ⟨cycles, e, -, hpoll, -⟩ | hop
    · obtain ⟨timers, chip, hadv, -, ha⟩ := Acia.Sound.poll_ok hpoll
      have hwired := Acia.Wired.advance ih hb.sound.timed hadv
      rw [ha]
      exact hwired
    · rw [perform_outcome hb.sound hb.transmitDelay_ne_zero h hop]
      exact wired_outcome ih _
  | shelve _ _ ih => exact ih

/-- No operation plays a byte without a divider. -/
theorem divided_outcome {b : Board ρ} (h : Acia.Divided b.acia.chip) (op : Operation ρ) :
    Acia.Divided (b.outcome op).chip := by
  cases op with
  | read address => exact h.read address
  | write address value => exact h.written address value
  | selectRs423 selected => exact h.selected selected
  | switchMotor on => exact h.switched on
  | setReceiveRate rate => exact h.rated rate
  | insert data clock => exact h.opened _
  | reinsert => exact outcome_reinsert (P := fun a => Acia.Divided a.chip) h h.loaded
  | rewind => exact h.rewind
  | ulaWrite value => exact ((h.rated _).switched _).selected _
  | ulaRead => exact ((h.rated _).switched _).selected _
  | reset | setCarrier | receive | poll | eject | ulaReset | attachPeer | attachTone
  | attachNoise => exact h

theorem Reachable.divided {b : Board ρ} (hb : b.Reachable) : Acia.Divided b.acia.chip := by
  induction hb with
  | start h =>
    obtain ⟨-, -, hacia⟩ := ofConfig_eq h
    rw [hacia]
    intro m hm
    simp at hm
  | perform hb h ih =>
    rcases perform_cases h with ⟨cycles, e, -, hpoll, -⟩ | hop
    · obtain ⟨timers, chip, hadv, -, ha⟩ := Acia.Sound.poll_ok hpoll
      have hdivided := ih.advance hb.wired.control hb.sound.timed hadv
      rw [ha]
      exact hdivided
    · rw [perform_outcome hb.sound hb.transmitDelay_ne_zero h hop]
      exact divided_outcome ih _
  | shelve _ _ ih => exact ih

/-- Once the transmit register has been written or reset, it is empty or about to become so. -/
theorem Course.settled {allowed : Board ρ → Operation ρ → Prop} {b₀ b b' : Board ρ}
    (hb₀ : b₀.Reachable) {op : Operation ρ} (hop : Transmitter.settles op = true) {reply : Reply}
    (hperform : b₀.perform op = .ok (reply, b)) (h : Course allowed b b') :
    b'.acia.transmitter.Settled := by
  have hb := hb₀.perform hperform
  induction h with
  | refl =>
    rw [perform_transmitter hb₀ hperform]
    exact Transmitter.settled_follow (Or.inr hop)
  | perform h _ hperform' ih =>
    rw [perform_transmitter (h.reachable hb) hperform']
    exact Transmitter.settled_follow (Or.inl ih)
  | shelve _ _ ih => exact ih

/-- **Every state of a board is regular.**  Below the end of time the timers are wired to the chip
and nothing is overdue, and once the transmit register has been written or reset, it is empty or
becomes so within a transmit delay. -/
theorem Reachable.regular {b : Board ρ} (hb : b.Reachable)
    (hend : b.acia.now.count < Cycles.last.count) :
    b.acia.Regular ∧
      ∀ {b₀ b₁ : Board ρ} {op : Operation ρ} {reply : Reply}, b₀.Reachable →
        Transmitter.settles op = true → b₀.perform op = .ok (reply, b₁) →
        Course (fun _ _ => True) b₁ b →
        b.acia.chip.status.transmitEmpty = true ∨
          b.acia.timers.isArmed Acia.Timer.transmit.id = .ok true ∧
            b.acia.transmitRemaining.count ≤ b.acia.transmitDelay.count := by
  have hplace : b.acia.InPlace := hb.sound.timed.bodies
  have hwired := hb.wired
  have hheld : b.acia.chip.status.sendHeld = b.acia.chip.rs423Selected := hwired.held
  obtain ⟨hbit, hclear⟩ := Acia.testBit_status b.acia.chip.status
  constructor
  · exact
      { tape := by rw [Acia.isArmed_eq hplace, hwired.tape]; rfl
        rs423 := by rw [Acia.isArmed_eq hplace, hwired.rs423]; rfl
        held := hheld
        heldBit := hbit.trans hheld
        clearBits := hclear
        control := hwired.control
        divided := fun m hm control heq => by
          have hm := hb.divided m (List.mem_reverse.mp hm)
          rw [heq] at hm
          simp [Acia.Event.lacksDivider, Tape.Signal.lacksDivider] at hm
        reported := hb.sound.reported
        rate := UInt32.pos_iff_ne_zero.mpr hwired.rate
        later := hb.later hend }
  · intro b₀ b₁ op reply hb₀ hop hperform hcourse
    rcases hcourse.settled hb₀ hop hperform with hempty | hpending
    · exact Or.inl hempty
    · right
      obtain ⟨due, hdue⟩ := Option.isSome_iff_exists.mp hpending
      have hle := hb.due_le hdue
      have hdue : Acia.Timer.transmit.due? b.acia.timers = some due := hdue
      refine ⟨by rw [Acia.isArmed_eq hplace, hdue]; rfl, ?_⟩
      rw [Acia.transmitRemaining_eq, hdue]
      change due.count - b.acia.now.count ≤ b.acia.transmitDelay.count
      omega

/-- A board that plays a tape while RS423 is selected. -/
def playing : Board Unit :=
  ({ plain with shelf := some (.tapefile (.ofImage [0x41, 0x42] .standard)) } : Board Unit).after
    [.reinsert, .selectRs423 true, .switchMotor true, .poll 3000]

/-- It is regular, and still so 500 cycles after a byte has been written. -/
theorem regular_playing :
    ∃ (b₁ b : Board Unit) (reply : Reply), playing.Reachable ∧ b.Reachable ∧
      b.acia.now.count < Cycles.last.count ∧ b.acia.timers.pending = 3 ∧ b.acia.Regular ∧
      Transmitter.settles (.write 1 0x55 : Operation Unit) = true ∧
      playing.perform (.write 1 0x55) = .ok (reply, b₁) ∧ Course (fun _ _ => True) b₁ b ∧
      (b.acia.chip.status.transmitEmpty = true ∨
        b.acia.timers.isArmed Acia.Timer.transmit.id = .ok true ∧
          b.acia.transmitRemaining.count ≤ b.acia.transmitDelay.count) := by
  have hplaying : playing.Reachable := (reachable_plain.shelve _).after _
  obtain ⟨reply, hwrite⟩ := perform_after playing (.write 1 0x55) (by decide +kernel)
  obtain ⟨_, hpoll⟩ := perform_after (playing.after [.write 1 0x55]) (.poll 500)
    (by decide +kernel)
  have hcourse : Course (fun _ _ => True) (playing.after [.write 1 0x55]) _ :=
    Course.refl.perform trivial hpoll
  have hb := hcourse.reachable (hplaying.perform hwrite)
  have hend : ((playing.after [.write 1 0x55]).after [.poll 500]).acia.now.count
      < Cycles.last.count := by decide +kernel
  obtain ⟨hregular, hsettled⟩ := hb.regular hend
  exact ⟨_, _, reply, hplaying, hb, hend, by decide +kernel, hregular, rfl, hwrite, hcourse,
    hsettled hplaying rfl hwrite hcourse⟩

end Board

end Cassette
