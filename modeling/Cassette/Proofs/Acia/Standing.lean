import Cassette.Proofs.Acia.Timers

/-!
# What time leaves alone

Neither the tape nor the RS423 line has a hand in how the chip is set up: the control register,
the selection of the receive side, the motor, the receive rate and the lines of the transmitter.
Of all that happens while time passes, only the end of a transmission changes any of it, and
that the transmit register alone.

## Main definitions

* `Standing` and `Chip.standing` — how the chip is set up.

## Main results

* `standing_play`, `standing_pollPeer`, … — what leaves the chip as it is set up.
* `standing_act` — what the acts of the timers do to it.
-/

namespace Cassette.Acia

variable {ρ : Type}

/-- How the chip is set up. -/
structure Standing where
  control : UInt8
  rs423Selected : Bool
  motorOn : Bool
  receiveRate : UInt32
  sendHeld : Bool
  transmitEmpty : Bool

/-- How the chip is set up. -/
def Chip.standing (c : Chip ρ) : Standing where
  control := c.control
  rs423Selected := c.rs423Selected
  motorOn := c.motorOn
  receiveRate := c.receiveRate
  sendHeld := c.status.sendHeld
  transmitEmpty := c.status.transmitEmpty

/-! ### Lines and devices -/

@[simp] theorem standing_setCarrier (c : Chip ρ) (level : Bool) :
    (c.setCarrier level).standing = c.standing := by
  unfold Chip.setCarrier Status.setCarrier
  split
  · rfl
  · split <;> rfl

@[simp] theorem standing_cassetteCarrier (c : Chip ρ) (level : Bool) :
    (c.cassetteCarrier level).standing = c.standing := by
  unfold Chip.cassetteCarrier
  split
  · rfl
  · exact standing_setCarrier c level

@[simp] theorem standing_playTone (now : Cycles) (c : Chip ρ) (hertz : Binary32) :
    (c.playTone now hertz).standing = c.standing := by
  unfold Chip.playTone
  split
  · rfl
  · split <;> rfl

@[simp] theorem standing_pollPeer [SerialPeer ρ] (now : Cycles) (c : Chip ρ) :
    (c.pollPeer now).standing = c.standing := by
  unfold Chip.pollPeer
  split
  · rfl
  · next peer _ =>
    dsimp only
    cases (SerialPeer.offer peer (Control.requestToSend c.control)).1 <;> rfl

@[simp] theorem standing_transmit [SerialPeer ρ] (now : Cycles) (c : Chip ρ) (b : UInt8) :
    (c.transmit now b).standing = c.standing := by
  unfold Chip.transmit
  split <;> rfl

/-! ### The deck -/

theorem standing_take (now : Cycles) (c : Chip ρ) (s : Tape.Signal) :
    (c.take now s).standing = c.standing := by
  cases s with
  | byte b => rfl
  | carrier level => exact standing_cassetteCarrier _ level
  | tone hertz => exact standing_playTone now _ hertz
  | note notice => rfl

theorem standing_play (now : Cycles) (c : Chip ρ) (unit : Tape.Played Tape) :
    (c.play now unit).standing = c.standing := by
  have hsignals : (unit.signals.foldl (Chip.take now) c).standing = c.standing := by
    induction unit.signals generalizing c with
    | nil => rfl
    | cons s signals ih => exact (ih _).trans (standing_take now c s)
  unfold Chip.play
  split <;> exact hsignals

theorem standing_pollTape (now : Cycles) (c : Chip ρ) :
    (c.pollTape now).2.standing = c.standing := by
  have hunits (units : List (Tape.Played Tape)) :
      (units.foldl (Chip.play now) c).standing = c.standing := by
    induction units generalizing c with
    | nil => rfl
    | cons unit units ih => exact (ih _).trans (standing_play now c unit)
  unfold Chip.pollTape
  split
  · exact hunits _
  · rfl

/-! ### Acts -/

/-- The end of a transmission empties the transmit register; nothing else that a timer does
changes how the chip is set up. -/
theorem standing_act [SerialPeer ρ] (timer : Timer) (now : Cycles) (c : Chip ρ) :
    (timer.act now c).2.standing
      = { c.standing with
          transmitEmpty := decide (timer = .transmit) || c.status.transmitEmpty } := by
  cases timer with
  | transmit => rfl
  | tape => exact standing_pollTape now c
  | rs423 =>
    rw [Timer.act_rs423]
    split
    · exact standing_pollPeer now c
    · rfl

end Cassette.Acia
