import Cassette.Proofs.Acia.Outcome
import Cassette.Proofs.Board.Reachable

/-!
# What the operations of a board come to

With the timers in their places every operation of the board but the passing of time comes to a
chip that can be written down.  It keeps the transmit delay, and the clock goes on only when time
passes; and below the end of time it succeeds, unless it sets a receive rate of zero.

## Main definitions

* `Board.outcome` — the chip after an operation other than the passing of time.
* `Board.answer`, `Operation.latched` — what it answers, and what the serial ULA has latched then.
* `Operation.setUp` — how the chip is set up after an operation.
* `Board.Course` — from one state of a board to another by operations of some kind.
* `Board.after` — the board after a history.

## Main results

* `perform_outcome`, `perform_answer` — an operation that succeeds comes to its outcome, and gives
  its answer.
* `perform_standing` — and the chip is set up as it says.
* `Course.reachable` — a course leads through states of a board.
* `Reachable.exists_perform` — below the end of time operations succeed.
-/

namespace Cassette

namespace Acia

variable {ρ : Type}

/-- The chip after a register of the serial ULA has been applied. -/
def routed (a : Acia ρ) (u : SerialUla) : Acia ρ :=
  ((a.rated u.receiveRate).switched u.motorOn).selected u.selectsRs423

theorem setReceiveRate_eq (a : Acia ρ) {rate : UInt32} (h : rate ≠ 0) :
    a.setReceiveRate rate = .ok (a.rated rate) := by
  unfold setReceiveRate rated
  rw [if_neg h, if_neg h]

/-- No rate that the serial ULA selects is zero. -/
theorem ulaRate_ne_zero (u : SerialUla) : u.receiveRate ≠ 0 := by
  have hrates : ∀ field < 8, SerialUla.rates.getD field 19200 ≠ 0 := by decide
  exact hrates _ (Nat.mod_lt _ (by decide))

theorem ulaApply_eq {a : Acia ρ} (h : a.Sound) (u : SerialUla) : u.apply a = .ok (a.routed u) := by
  have hrate := setReceiveRate_eq a (ulaRate_ne_zero u)
  have hrated : (a.rated u.receiveRate).Sound := h.steps (steps_setReceiveRate hrate)
  have hmotor := switchMotor_eq hrated.timed.bodies u.motorOn
  have hswitched := hrated.steps (steps_switchMotor hmotor)
  unfold SerialUla.apply
  rw [hrate]
  change (do
    let a ← (a.rated u.receiveRate).switchMotor u.motorOn
    a.selectRs423 u.selectsRs423) = _
  rw [hmotor]
  exact selectRs423_eq hswitched.timed.bodies u.selectsRs423

theorem ulaWrite_eq {a : Acia ρ} (h : a.Sound) (value : UInt8) :
    SerialUla.write value a = .ok (⟨value⟩, a.routed ⟨value⟩) := by
  unfold SerialUla.write
  dsimp only
  rw [ulaApply_eq h]
  rfl

/-- How a chip is set up after a register of the serial ULA has been applied. -/
def Standing.routed (k : Standing) (u : SerialUla) : Standing :=
  { k with
    receiveRate := u.receiveRate
    motorOn := u.motorOn
    rs423Selected := u.selectsRs423
    sendHeld := u.selectsRs423 }

theorem standing_routed (a : Acia ρ) (u : SerialUla) :
    (a.routed u).chip.standing = a.chip.standing.routed u := by
  have hselected := standing_select ((a.rated u.receiveRate).switched u.motorOn).chip u.selectsRs423
  rw [standing_switched, standing_rated, if_neg (ulaRate_ne_zero u)] at hselected
  exact hselected

/-! ### What small steps leave alone -/

theorem command_eq {a a' : Acia ρ} {c : Scheduler.Command} (h : a.command c = .ok a') :
    ∃ timers, c.apply a.timers = .ok timers ∧ a' = { a with timers } := by
  unfold command at h
  split at h
  · next timers happly => exact ⟨timers, happly, (Except.ok.inj h).symm⟩
  · simp at h

namespace Steps

variable {a b : Acia ρ}

theorem transmitDelay (h : Steps a b) : b.transmitDelay = a.transmitDelay := by
  induction h with
  | refl => rfl
  | chip _ f _ ih => exact ih
  | command _ hc ih =>
    obtain ⟨timers, -, rfl⟩ := command_eq hc
    exact ih

theorem now (h : Steps a b) : b.now = a.now := by
  induction h with
  | refl => rfl
  | chip _ f _ ih => exact ih
  | command _ hc ih =>
    obtain ⟨timers, happly, rfl⟩ := command_eq hc
    exact (Scheduler.epoch_of_apply happly).trans ih

end Steps

end Acia

namespace Board

variable {ρ : Type}

theorem load_eq {b b' : Board ρ} (h : b.acia.InPlace) {tape : Tape} {reply : Reply}
    (hload : b.load tape = .ok (reply, b')) : b'.acia = b.acia.loaded tape := by
  unfold load at hload
  rw [Acia.insert_eq h] at hload
  obtain ⟨-, rfl⟩ := Prod.mk.inj (Except.ok.inj hload)
  rfl

theorem load_answer {b b' : Board ρ} {tape : Tape} {reply : Reply}
    (h : b.load tape = .ok (reply, b')) :
    reply = .takenOut (b.acia.chip.deck.map (·.format)) ∧ b'.ula = b.ula := by
  obtain ⟨⟨replaced, a⟩, hinsert, h⟩ := bind_ok h
  obtain ⟨rfl, rfl⟩ := Prod.mk.inj (Except.ok.inj h)
  obtain ⟨rfl, -⟩ := Acia.insert_steps hinsert
  exact ⟨rfl, rfl⟩

variable [Acia.SerialPeer ρ]

/-- A new board has an idle chip with an empty agenda. -/
theorem ofConfig_eq {ρ : Type} {config : Acia.Config} {b : Board ρ}
    (h : Board.ofConfig config = .ok b) :
    config.transmitDelay ≠ 0 ∧ config.receiveRate ≠ 0 ∧
      b.acia =
        { chip := { clock := config.clock, receiveRate := config.receiveRate }
          timers := Acia.Timer.all.foldl (fun s timer => (s.register timer).2) {}
          transmitDelay := config.transmitDelay } := by
  obtain ⟨a, ha, h⟩ := bind_ok h
  rw [← Except.ok.inj h]
  unfold Acia.ofConfig at ha
  split at ha
  · simp at ha
  · next hdelay =>
    split at ha
    · simp at ha
    · next hrate => exact ⟨hdelay, hrate, (Except.ok.inj ha).symm⟩

/-- The chip after an operation other than the passing of time. -/
def outcome (b : Board ρ) : Operation ρ → Acia ρ
  | .read address => (b.acia.read address).2
  | .write address value => b.acia.written address value
  | .reset => b.acia.reset
  | .selectRs423 selected => b.acia.selected selected
  | .setCarrier level => b.acia.setCarrier level
  | .receive byte => b.acia.receive byte
  | .switchMotor on => b.acia.switched on
  | .setReceiveRate rate => b.acia.rated rate
  | .insert data clock => b.acia.opened (Tape.load data clock)
  | .eject => b.acia.unloaded
  | .reinsert => b.shelf.elim b.acia b.acia.loaded
  | .rewind => b.acia.rewind
  | .ulaWrite value => b.acia.routed ⟨value⟩
  | .ulaRead => b.acia.routed ⟨SerialUla.busValue⟩
  | .attachPeer peer => b.acia.onChip ({ · with peer })
  | .attachTone attached => b.acia.onChip ({ · with toneAttached := attached })
  | .attachNoise attached => b.acia.onChip ({ · with noiseAttached := attached })
  | .poll _ | .ulaReset => b.acia

/-- A tape that is put back is there or is not; nothing else is known of it. -/
theorem outcome_reinsert {b : Board ρ} {P : Acia ρ → Prop} (h : P b.acia)
    (hloaded : ∀ tape, P (b.acia.loaded tape)) : P (b.outcome .reinsert) := by
  change P (b.shelf.elim b.acia b.acia.loaded)
  cases b.shelf with
  | none => exact h
  | some tape => exact hloaded tape

/-- An operation that succeeds comes to its outcome. -/
theorem perform_outcome {b b' : Board ρ} (hsound : b.acia.Sound) (hdelay : b.acia.transmitDelay ≠ 0)
    {op : Operation ρ} {reply : Reply} (h : b.perform op = .ok (reply, b'))
    (hop : ∀ cycles, op ≠ .poll cycles) : b'.acia = b.outcome op := by
  have hplace : b.acia.InPlace := hsound.timed.bodies
  cases op with
  | poll cycles => exact absurd rfl (hop cycles)
  | read | reset | setCarrier | receive | rewind | ulaReset | attachPeer | attachTone
  | attachNoise =>
    obtain ⟨-, rfl⟩ := Prod.mk.inj (Except.ok.inj h)
    rfl
  | write address value =>
    simp only [perform, Acia.write_eq hplace hdelay] at h
    obtain ⟨-, rfl⟩ := Prod.mk.inj (Except.ok.inj h)
    rfl
  | selectRs423 selected =>
    simp only [perform, Acia.selectRs423_eq hplace] at h
    obtain ⟨-, rfl⟩ := Prod.mk.inj (Except.ok.inj h)
    rfl
  | switchMotor on =>
    simp only [perform, Acia.switchMotor_eq hplace] at h
    obtain ⟨-, rfl⟩ := Prod.mk.inj (Except.ok.inj h)
    rfl
  | setReceiveRate rate =>
    obtain ⟨a, ha, h⟩ := bind_ok h
    obtain ⟨-, rfl⟩ := Prod.mk.inj (Except.ok.inj h)
    by_cases hrate : rate = 0
    · rw [hrate] at ha
      simp [Acia.setReceiveRate] at ha
    · rw [Acia.setReceiveRate_eq b.acia hrate] at ha
      exact (Except.ok.inj ha).symm
  | insert data clock =>
    change b'.acia = b.acia.opened (Tape.load data clock)
    obtain ⟨⟨told, opened⟩, hload⟩ : ∃ image, Tape.load data clock = image := ⟨_, rfl⟩
    simp only [perform, hload] at h
    rw [hload]
    cases opened with
    | error e =>
      obtain ⟨-, rfl⟩ := Prod.mk.inj (Except.ok.inj h)
      rfl
    | ok tape => exact load_eq (b := b.withAcia (b.acia.tell told)) (hplace.tell told) h
  | eject =>
    simp only [perform, Acia.eject_eq hplace] at h
    obtain ⟨-, rfl⟩ := Prod.mk.inj (Except.ok.inj h)
    rfl
  | reinsert =>
    change b'.acia = b.shelf.elim b.acia b.acia.loaded
    simp only [perform] at h
    split at h
    · next hshelf =>
      obtain ⟨-, rfl⟩ := Prod.mk.inj (Except.ok.inj h)
      rw [hshelf]
      rfl
    · next tape hshelf =>
      rw [hshelf]
      exact load_eq (b := { b with shelf := none }) hplace h
  | ulaWrite value =>
    simp only [perform, Acia.ulaWrite_eq hsound] at h
    obtain ⟨-, rfl⟩ := Prod.mk.inj (Except.ok.inj h)
    rfl
  | ulaRead =>
    simp only [perform, SerialUla.read, Acia.ulaWrite_eq hsound] at h
    obtain ⟨-, rfl⟩ := Prod.mk.inj (Except.ok.inj h)
    rfl

/-- What an operation other than the passing of time answers. -/
def answer (b : Board ρ) : Operation ρ → Reply
  | .read address => .byte (b.acia.read address).1
  | .insert data clock =>
    match (Tape.load data clock).2 with
    | .error e => .failed e
    | .ok _ => .takenOut (b.acia.chip.deck.map (·.format))
  | .eject => .takenOut (b.acia.chip.deck.map (·.format))
  | .reinsert => .takenOut (b.shelf.bind fun _ => b.acia.chip.deck.map (·.format))
  | .ulaRead => .byte 0
  | _ => .none

/-- What the serial ULA has latched after an operation. -/
def Operation.latched (u : SerialUla) : Operation ρ → SerialUla
  | .ulaWrite value => ⟨value⟩
  | .ulaRead => ⟨SerialUla.busValue⟩
  | .ulaReset => {}
  | _ => u

theorem perform_answer {b b' : Board ρ} {op : Operation ρ} {reply : Reply}
    (h : b.perform op = .ok (reply, b')) (hop : ∀ cycles, op ≠ .poll cycles) :
    reply = b.answer op ∧ b'.ula = op.latched b.ula := by
  cases op with
  | poll cycles => exact absurd rfl (hop cycles)
  | read | reset | setCarrier | receive | rewind | ulaReset | attachPeer | attachTone
  | attachNoise =>
    obtain ⟨rfl, rfl⟩ := Prod.mk.inj (Except.ok.inj h)
    exact ⟨rfl, rfl⟩
  | write | selectRs423 | switchMotor | setReceiveRate =>
    obtain ⟨_, -, h⟩ := bind_ok h
    obtain ⟨rfl, rfl⟩ := Prod.mk.inj (Except.ok.inj h)
    exact ⟨rfl, rfl⟩
  | insert data clock =>
    obtain ⟨⟨told, opened⟩, hload⟩ : ∃ image, Tape.load data clock = image := ⟨_, rfl⟩
    have hdeck := (Acia.steps_tell b.acia told).sameDeck.deck
    unfold answer
    simp only [perform, hload] at h ⊢
    cases opened with
    | error e =>
      obtain ⟨rfl, rfl⟩ := Prod.mk.inj (Except.ok.inj h)
      exact ⟨rfl, rfl⟩
    | ok tape =>
      obtain ⟨rfl, hula⟩ := load_answer h
      exact ⟨congrArg (fun deck => Reply.takenOut (deck.map (·.format))) hdeck, hula⟩
  | eject =>
    obtain ⟨⟨tape, a⟩, heject, h⟩ := bind_ok h
    obtain ⟨rfl, rfl⟩ := Prod.mk.inj (Except.ok.inj h)
    obtain ⟨rfl, -⟩ := Acia.eject_steps heject
    exact ⟨rfl, rfl⟩
  | reinsert =>
    simp only [perform] at h
    simp only [answer]
    split at h
    · next hshelf =>
      obtain ⟨rfl, rfl⟩ := Prod.mk.inj (Except.ok.inj h)
      rw [hshelf]
      exact ⟨rfl, rfl⟩
    · next tape hshelf =>
      rw [hshelf]
      exact load_answer (b := { b with shelf := none }) h
  | ulaWrite value =>
    obtain ⟨⟨u, a⟩, hwrite, h⟩ := bind_ok h
    obtain ⟨rfl, rfl⟩ := Prod.mk.inj (Except.ok.inj h)
    obtain ⟨_, -, hwrite⟩ := bind_ok hwrite
    obtain ⟨rfl, -⟩ := Prod.mk.inj (Except.ok.inj hwrite)
    exact ⟨rfl, rfl⟩
  | ulaRead =>
    obtain ⟨⟨value, u, a⟩, hread, h⟩ := bind_ok h
    obtain ⟨rfl, rfl⟩ := Prod.mk.inj (Except.ok.inj h)
    obtain ⟨⟨u', a'⟩, hwrite, hread⟩ := bind_ok hread
    obtain ⟨rfl, hpair⟩ := Prod.mk.inj (Except.ok.inj hread)
    obtain ⟨rfl, -⟩ := Prod.mk.inj hpair
    obtain ⟨_, -, hwrite⟩ := bind_ok hwrite
    obtain ⟨rfl, -⟩ := Prod.mk.inj (Except.ok.inj hwrite)
    exact ⟨rfl, rfl⟩

/-- How the chip is set up after an operation, if it is set up as `k` before; only the passing of
time may empty the transmit register besides. -/
def Operation.setUp (k : Acia.Standing) : Operation ρ → Acia.Standing
  | .write address value =>
    if Acia.isData address then { k with transmitEmpty := false }
    else if Acia.Control.isReset value then { k with transmitEmpty := true }
    else { k with control := value }
  | .reset => { k with transmitEmpty := true }
  | .selectRs423 selected => { k with rs423Selected := selected, sendHeld := selected }
  | .switchMotor on => { k with motorOn := on }
  | .setReceiveRate rate => { k with receiveRate := if rate = 0 then k.receiveRate else rate }
  | .ulaWrite value => k.routed ⟨value⟩
  | .ulaRead => k.routed ⟨SerialUla.busValue⟩
  | _ => k

/-- The selection of the receive side after an operation, if it is `selected` before. -/
def Operation.selection (selected : Bool) : Operation ρ → Bool
  | .selectRs423 selected => selected
  | .ulaWrite value => (SerialUla.mk value).selectsRs423
  | .ulaRead => (SerialUla.mk SerialUla.busValue).selectsRs423
  | _ => selected

theorem standing_outcome (b : Board ρ) (op : Operation ρ) :
    (b.outcome op).chip.standing = op.setUp b.acia.chip.standing := by
  cases op with
  | read address => exact Acia.standing_read b.acia address
  | write address value => exact Acia.standing_written b.acia address value
  | selectRs423 selected => exact Acia.standing_select b.acia.chip selected
  | setCarrier level => exact Acia.standing_setCarrier b.acia.chip level
  | switchMotor on => exact Acia.standing_switched b.acia on
  | setReceiveRate rate => exact Acia.standing_rated b.acia rate
  | insert data clock => exact Acia.standing_opened b.acia _
  | reinsert =>
    exact outcome_reinsert (P := (·.chip.standing = b.acia.chip.standing)) rfl fun _ => rfl
  | rewind => exact Acia.standing_rewind b.acia
  | ulaWrite value => exact Acia.standing_routed b.acia _
  | ulaRead => exact Acia.standing_routed b.acia _
  | reset | receive | poll | eject | ulaReset | attachPeer | attachTone | attachNoise => rfl

/-- The clock after an operation. -/
def Operation.clock (now : Cycles) : Operation ρ → Cycles
  | .poll cycles => now + cycles
  | _ => now

theorem perform_now {b b' : Board ρ} (hb : b.acia.Sound) {op : Operation ρ} {reply : Reply}
    (h : b.perform op = .ok (reply, b')) : b'.acia.now = op.clock b.acia.now := by
  rcases perform_cases h with ⟨cycles, e, rfl, hpoll, -⟩ | hop
  · obtain ⟨timers, chip, hadv, -, ha⟩ := Acia.Sound.poll_ok hpoll
    rw [ha]
    exact (hb.timed.of_advance hadv).2.1
  · have hnow := (perform_steps h hop).1.now
    cases op with
    | poll cycles => exact absurd rfl (hop cycles)
    | _ => exact hnow

theorem perform_transmitDelay {b b' : Board ρ} {op : Operation ρ} {reply : Reply}
    (h : b.perform op = .ok (reply, b')) : b'.acia.transmitDelay = b.acia.transmitDelay := by
  rcases perform_cases h with ⟨cycles, e, rfl, hpoll, -⟩ | hop
  · obtain ⟨timers, chip, -, -, ha⟩ := Acia.Sound.poll_ok hpoll
    rw [ha]
  · exact (perform_steps h hop).1.transmitDelay

theorem perform_now_le {b b' : Board ρ} (hb : b.acia.Sound) {op : Operation ρ} {reply : Reply}
    (h : b.perform op = .ok (reply, b')) : b.acia.now.count ≤ b'.acia.now.count := by
  rw [perform_now hb h]
  cases op with
  | poll cycles => exact Scheduler.count_le_add _ _
  | _ => exact Nat.le_refl _

theorem Reachable.transmitDelay_ne_zero {b : Board ρ} (h : b.Reachable) :
    b.acia.transmitDelay ≠ 0 := by
  induction h with
  | start h =>
    obtain ⟨hdelay, -, hacia⟩ := ofConfig_eq h
    rw [hacia]
    exact hdelay
  | perform _ h ih =>
    rw [perform_transmitDelay h]
    exact ih
  | shelve _ _ ih => exact ih

/-- An operation sets the chip up as it says. -/
theorem perform_standing {b b' : Board ρ} (hb : b.Reachable) {op : Operation ρ} {reply : Reply}
    (h : b.perform op = .ok (reply, b')) :
    b'.acia.chip.standing
      = { op.setUp b.acia.chip.standing with
          transmitEmpty := b'.acia.chip.status.transmitEmpty } := by
  rcases perform_cases h with ⟨cycles, e, rfl, hpoll, -⟩ | hop
  · obtain ⟨timers, chip, hadv, -, ha⟩ := Acia.Sound.poll_ok hpoll
    obtain ⟨-, hstanding, -⟩ := hb.sound.timed.induct
      (fun _ c => c.standing
        = { b.acia.chip.standing with transmitEmpty := c.status.transmitEmpty })
      (fun {_ c e _ timer} _ h _ _ _ => by
        have hact := Acia.standing_act timer e.due c
        have hempty := congrArg (·.transmitEmpty) hact
        rw [h] at hact
        exact hact.trans (congrArg (fun empty => Acia.Standing.mk _ _ _ _ _ empty) hempty.symm))
      rfl hadv
    rw [ha]
    exact hstanding
  · have hstanding := standing_outcome b op
    rw [← perform_outcome hb.sound hb.transmitDelay_ne_zero h hop] at hstanding
    rw [← hstanding]
    rfl

theorem perform_selection {b b' : Board ρ} (hb : b.Reachable) {op : Operation ρ} {reply : Reply}
    (h : b.perform op = .ok (reply, b')) :
    b'.acia.chip.rs423Selected = op.selection b.acia.chip.rs423Selected := by
  refine (congrArg (·.rs423Selected) (perform_standing hb h)).trans ?_
  cases op with
  | write address value =>
    simp only [Operation.setUp]
    split
    · rfl
    · split <;> rfl
  | _ => rfl

/-- Below the end of time an operation breaks the contract only by a receive rate of zero. -/
theorem Reachable.exists_perform {b : Board ρ} (hb : b.Reachable) (op : Operation ρ)
    (hrate : op ≠ .setReceiveRate 0)
    (hend : ∀ cycles, op = .poll cycles → b.acia.now.count + cycles.count < Cycles.last.count) :
    ∃ reply b', b.perform op = .ok (reply, b') := by
  have hsound := hb.sound
  have hplace : b.acia.InPlace := hsound.timed.bodies
  have hload {b : Board ρ} (hplace : b.acia.InPlace) (tape : Tape) :
      ∃ reply b', b.load tape = .ok (reply, b') := by
    unfold load
    rw [Acia.insert_eq hplace]
    exact ⟨_, _, rfl⟩
  cases op with
  | read | reset | setCarrier | receive | rewind | ulaReset | attachPeer | attachTone
  | attachNoise =>
    exact ⟨_, _, rfl⟩
  | write address value =>
    simp only [Board.perform, Acia.write_eq hplace hb.transmitDelay_ne_zero]
    exact ⟨_, _, rfl⟩
  | selectRs423 selected =>
    simp only [Board.perform, Acia.selectRs423_eq hplace]
    exact ⟨_, _, rfl⟩
  | switchMotor on =>
    simp only [Board.perform, Acia.switchMotor_eq hplace]
    exact ⟨_, _, rfl⟩
  | setReceiveRate rate =>
    simp only [Board.perform, Acia.setReceiveRate_eq b.acia fun hzero => hrate (hzero ▸ rfl)]
    exact ⟨_, _, rfl⟩
  | poll cycles =>
    obtain ⟨timers, chip, hadv⟩ := hsound.advance cycles (hend cycles rfl)
    simp only [Board.perform, Acia.Sound.poll_eq hadv]
    exact ⟨_, _, rfl⟩
  | insert data clock =>
    simp only [Board.perform]
    split
    · exact ⟨_, _, rfl⟩
    · next tape _ => exact hload (b := b.withAcia (b.acia.tell _)) (hplace.tell _) tape
  | eject =>
    simp only [Board.perform, Acia.eject_eq hplace]
    exact ⟨_, _, rfl⟩
  | reinsert =>
    simp only [Board.perform]
    split
    · exact ⟨_, _, rfl⟩
    · next tape _ => exact hload (b := { b with shelf := none }) hplace tape
  | ulaWrite value =>
    simp only [Board.perform, Acia.ulaWrite_eq hsound]
    exact ⟨_, _, rfl⟩
  | ulaRead =>
    simp only [Board.perform, SerialUla.read, Acia.ulaWrite_eq hsound]
    exact ⟨_, _, rfl⟩

theorem Reachable.exists_perform_poll {b : Board ρ} (hb : b.Reachable) {cycles : Cycles}
    (hend : b.acia.now.count + cycles.count < Cycles.last.count) :
    ∃ reply b', b.perform (.poll cycles) = .ok (reply, b') :=
  hb.exists_perform (.poll cycles) (by simp) fun _ heq => Operation.poll.inj heq ▸ hend

/-- A poll that is to end before the end of time does so. -/
theorem Reachable.now_poll_lt {b b' : Board ρ} (hb : b.Reachable) {cycles : Cycles} {reply : Reply}
    (h : b.perform (.poll cycles) = .ok (reply, b'))
    (hend : b.acia.now.count + cycles.count < Cycles.last.count) :
    b'.acia.now.count < Cycles.last.count := by
  have hclock : b'.acia.now = b.acia.now + cycles := perform_now hb.sound h
  rw [hclock, Cycles.count_add]
  exact Nat.lt_of_le_of_lt (Nat.min_le_left ..) hend

/-! ### Courses -/

/-- From one state of a board to another, by operations that are each allowed in their state. -/
inductive Course (allowed : Board ρ → Operation ρ → Prop) (b : Board ρ) : Board ρ → Prop where
  | refl : Course allowed b b
  | perform {b' b'' : Board ρ} (h : Course allowed b b') {op : Operation ρ} {reply : Reply}
      (hop : allowed b' op) (hperform : b'.perform op = .ok (reply, b'')) : Course allowed b b''
  | shelve {b' : Board ρ} (h : Course allowed b b') (shelf : Option Tape) :
      Course allowed b { b' with shelf }

namespace Course

variable {allowed : Board ρ → Operation ρ → Prop} {b b' : Board ρ}

theorem reachable (h : Course allowed b b') (hb : b.Reachable) : b'.Reachable := by
  induction h with
  | refl => exact hb
  | perform _ _ hperform ih => exact ih.perform hperform
  | shelve _ shelf ih => exact ih.shelve shelf

theorem now_le (h : Course allowed b b') (hb : b.Reachable) :
    b.acia.now.count ≤ b'.acia.now.count := by
  induction h with
  | refl => exact Nat.le_refl _
  | perform h _ hperform ih =>
    exact Nat.le_trans ih (perform_now_le (h.reachable hb).sound hperform)
  | shelve _ _ ih => exact ih

/-- A course may go on with a history of operations that are allowed everywhere. -/
theorem run {b₁ b₂ : Board ρ} (h : Course allowed b b₁) {ops : List (Operation ρ)}
    (hops : ∀ op ∈ ops, ∀ b, allowed b op) {replies : List Reply}
    (hrun : b₁.run ops = .ok (replies, b₂)) : Course allowed b b₂ := by
  induction ops generalizing b₁ replies with
  | nil =>
    obtain ⟨-, rfl⟩ := Prod.mk.inj (Except.ok.inj hrun)
    exact h
  | cons op ops ih =>
    obtain ⟨reply, rest, b', hperform, hrest, -⟩ := run_cons_iff.mp hrun
    exact ih (h.perform (hops op List.mem_cons_self b₁) hperform)
      (fun op hop => hops op (List.mem_cons_of_mem _ hop)) hrest

end Course

/-! ### Histories -/

/-- The board after a history; as it was, if the history breaks the contract. -/
def after (b : Board ρ) (ops : List (Operation ρ)) : Board ρ := (b.run ops).toOption.elim b (·.2)

theorem run_after (b : Board ρ) (ops : List (Operation ρ))
    (h : (b.run ops).toOption.isSome = true) :
    ∃ replies, b.run ops = .ok (replies, b.after ops) := by
  unfold after
  cases hrun : b.run ops with
  | error fault =>
    rw [hrun] at h
    simp [Except.toOption] at h
  | ok result => exact ⟨result.1, rfl⟩

theorem perform_after (b : Board ρ) (op : Operation ρ)
    (h : (b.run [op]).toOption.isSome = true) :
    ∃ reply, b.perform op = .ok (reply, b.after [op]) := by
  obtain ⟨replies, hrun⟩ := run_after b [op] h
  obtain ⟨reply, rest, b', hperform, hrest, -⟩ := run_cons_iff.mp hrun
  obtain ⟨-, heq⟩ := Prod.mk.inj (Except.ok.inj hrest)
  exact ⟨reply, heq ▸ hperform⟩

theorem Reachable.after {b : Board ρ} (hb : b.Reachable) (ops : List (Operation ρ)) :
    (b.after ops).Reachable := by
  unfold Board.after
  cases hrun : b.run ops with
  | error fault => exact hb
  | ok result => exact hb.run hrun

end Board

end Cassette
