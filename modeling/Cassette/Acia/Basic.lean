import Cassette.Acia.Chip
import Cassette.Scheduler.Poll

/-!
# The serial chip in time

The chip and a scheduler of its own with three tasks: one ends a transmission, one polls
the tape and one polls the RS423 line.  The operations are those of the machine on the
chip's registers and lines, of the user on the deck, and of the host on the clock.

## Main definitions

* `Timer` — the tasks, and `Timer.routine`, what each does when it fires.
* `Acia` — the chip with its timers.
* `Acia.read`, `write`, `reset`, `selectRs423`, `switchMotor`, … — the operations.
* `Acia.poll` — the passing of time.
-/

namespace Cassette

namespace Acia

/-- The chip's own tasks. -/
inductive Timer where
  /-- The transmit register becomes empty. -/
  | transmit
  /-- The tape has finished its last unit of work. -/
  | tape
  /-- A character of the RS423 line is over. -/
  | rs423
  deriving DecidableEq

namespace Timer

/-- The timers, in the order in which they are registered. -/
def all : List Timer := [.transmit, .tape, .rs423]

/-- The task of a timer. -/
def id : Timer → Handle
  | .transmit => ⟨0⟩
  | .tape => ⟨1⟩
  | .rs423 => ⟨2⟩

/-- What a timer does when it fires.  The tape sets its own pace; the line is polled
once in the time of a character, for as long as it is selected. -/
def routine {ρ : Type} [SerialPeer ρ] (timer : Timer) (task : Handle) :
    Scheduler.Routine Timer (Chip ρ) :=
  match timer with
  | .transmit =>
    .update (fun c => { c with status := { c.status with transmitEmpty := true } })
      (.finish .transmit)
  | .tape =>
    .ask .epoch fun now => .read fun c =>
      let turn := c.pollTape now
      .write turn.2 <|
        match turn.1 with
        | some delay => .command (.arm task delay) (.finish .tape)
        | none => .finish .tape
  | .rs423 =>
    .ask .epoch fun now => .read fun c =>
      if c.rs423Selected then
        let c := c.pollPeer now
        .write c (.command (.arm task c.byteTime) (.finish .rs423))
      else .finish .rs423

end Timer

/-- A request that breaks the chip's contract. -/
inductive Fault where
  | transmitDelay
  | initialRate
  | receiveRate
  /-- A timer breaks the scheduler's contract. -/
  | timer (fault : Scheduler.Fault)
  deriving DecidableEq

/-- The text of a fault. -/
def Fault.message : Fault → String
  | .transmitDelay => "ACIA transmit delay must be positive"
  | .initialRate => "ACIA receive rate must be positive"
  | .receiveRate => "serial receive rate must be positive"
  | .timer fault => fault.message

/-- How a chip is set up. -/
structure Config where
  clock : Clock := .standard
  /-- Cycles between a write to the data register and the transmit register being
  empty again. -/
  transmitDelay : Cycles := 2000
  /-- The rate of the RS423 line until it is set. -/
  receiveRate : UInt32 := 19200

end Acia

/-- The serial chip with its timers. -/
structure Acia (ρ : Type) where
  chip : Acia.Chip ρ
  timers : Scheduler Acia.Timer
  transmitDelay : Cycles

namespace Acia

variable {ρ : Type}

/-- A chip with an empty deck and nothing attached.  Both times of a configuration have to be
positive. -/
def ofConfig (config : Config) : Except Fault (Acia ρ) :=
  if config.transmitDelay = 0 then .error .transmitDelay
  else if config.receiveRate = 0 then .error .initialRate
  else .ok
    { chip := { clock := config.clock, receiveRate := config.receiveRate }
      timers := Timer.all.foldl (fun s timer => (s.register timer).2) {}
      transmitDelay := config.transmitDelay }

/-- Change the agenda of the timers. -/
def command (a : Acia ρ) (c : Scheduler.Command) : Except Fault (Acia ρ) :=
  match c.apply a.timers with
  | .ok timers => .ok { a with timers }
  | .error fault => .error (.timer fault)

/-- Change the chip, and leave the timers. -/
def onChip (a : Acia ρ) (f : Chip ρ → Chip ρ) : Acia ρ := { a with chip := f a.chip }

/-- The present cycle. -/
def now (a : Acia ρ) : Cycles := a.timers.epoch

/-- An event on the present cycle. -/
def record (a : Acia ρ) (e : Event) : Acia ρ := a.onChip (·.record a.now e)

/-- Notices about an image that is being opened. -/
def tell (a : Acia ρ) (notices : List Tape.Notice) : Acia ρ :=
  notices.foldl (fun a notice => a.record (.note (.opening notice))) a

/-! ### Registers -/

/-- An odd address is that of the data register, an even one that of status and control. -/
def isData (address : UInt16) : Bool := address.toNat % 2 = 1

/-- Read a register.  Reading the data register acknowledges the byte in it. -/
def read (a : Acia ρ) (address : UInt16) : UInt8 × Acia ρ :=
  if isData address then
    (a.chip.data, a.onChip fun c => { c with status := c.status.acknowledge })
  else (a.chip.shownStatus.byte, a)

/-- Master reset: the status register takes its reset state. -/
def reset (a : Acia ρ) : Acia ρ := a.onChip fun c => { c with status := c.status.reset }

/-- Write a register.  A byte for the data register is sent, and the transmit register is
full until the transmit timer fires; a control byte that asks for a master reset leaves
the control register as it was. -/
def write [SerialPeer ρ] (a : Acia ρ) (address : UInt16) (value : UInt8) :
    Except Fault (Acia ρ) :=
  if isData address then do
    let a := a.onChip fun c => { c with status := { c.status with transmitEmpty := false } }
    let a ← a.command (.keepArmed Timer.transmit.id true a.transmitDelay)
    return a.onChip (·.transmit a.now value)
  else if Control.isReset value then .ok a.reset
  else .ok (a.onChip fun c => { c with control := value })

/-! ### Lines -/

/-- Give the receive side to RS423, which holds sending back and has no carrier, or to
the cassette, to which sending is always clear. -/
def selectRs423 (a : Acia ρ) (selected : Bool) : Except Fault (Acia ρ) :=
  let a := a.onChip fun c =>
    let c := { c with rs423Selected := selected, status := { c.status with sendHeld := selected } }
    if selected then c.setCarrier false else c
  a.command (.keepArmed Timer.rs423.id selected a.chip.byteTime)

/-- Drive the carrier-detect input. -/
def setCarrier (a : Acia ρ) (level : Bool) : Acia ρ := a.onChip (·.setCarrier level)

/-- Deliver a byte. -/
def receive (a : Acia ρ) (b : UInt8) : Acia ρ := a.onChip (·.receive b)

/-- Set the rate of the RS423 line. -/
def setReceiveRate (a : Acia ρ) (rate : UInt32) : Except Fault (Acia ρ) :=
  if rate = 0 then .error .receiveRate
  else .ok (a.onChip fun c => { c with receiveRate := rate })

/-! ### The deck -/

/-- The noise of the motor relay, for whatever makes it. -/
def noise (a : Acia ρ) (e : Event) : Acia ρ := if a.chip.noiseAttached then a.record e else a

/-- Switch the motor.  A tape in the deck is polled one cycle after the motor starts;
when it stops, the tones, the timer and the carrier of the cassette stop with it. -/
def switchMotor (a : Acia ρ) (on : Bool) : Except Fault (Acia ρ) :=
  if on = a.chip.motorOn then .ok a
  else
    let a := (a.onChip ({ · with motorOn := on })).record (.note (.motor on))
    if on then
      let a := a.noise .motorOn
      a.command (.keepArmed Timer.tape.id a.chip.deck.isSome 1)
    else do
      let a ← (a.onChip (·.playTone a.now .zero)).command (.cancel Timer.tape.id)
      return (a.onChip (·.cassetteCarrier false)).noise .motorOff

/-- Put a tape into the deck, with the tape that it replaces. -/
def insert (a : Acia ρ) (tape : Tape) : Except Fault (Option Tape × Acia ρ) := do
  let replaced := a.chip.deck
  let a := (a.record (.note (.inserted tape.format))).onChip ({ · with deck := some tape })
  let a ← a.command (.cancel Timer.tape.id)
  let a ← if a.chip.motorOn then a.command (.arm Timer.tape.id 1) else pure a
  return (replaced, a)

/-- Take the tape out of the deck. -/
def eject (a : Acia ρ) : Except Fault (Option Tape × Acia ρ) := do
  let tape := a.chip.deck
  let a ← a.command (.cancel Timer.tape.id)
  return (tape, a.onChip ({ · with deck := none }))

/-- Rewind the tape in the deck. -/
def rewind (a : Acia ρ) : Acia ρ :=
  match a.chip.deck with
  | none => a
  | some tape =>
    (a.record (.note .rewinding)).onChip ({ · with deck := some tape.rewind })

/-! ### Time -/

/-- One more than the tasks that can fire in a number of cycles: on each of them, and on
the one before them, every timer fires once at most.  Only at the end of time, where a
delay leads nowhere, the tape fires again on the same cycle, for as long as it has work. -/
def firingLimit (a : Acia ρ) (cycles : Cycles) : Nat :=
  let again := if a.now + cycles = .last then a.chip.deck.elim 0 Tape.work else 0
  3 * (cycles.count + 1) + again + 1

/-- Let time pass.  If the deck lost its tape meanwhile, the reason is reported, and the
chip goes on without it. -/
def poll [SerialPeer ρ] (a : Acia ρ) (cycles : Cycles) :
    Except Fault (Option Tape.Error × Acia ρ) :=
  match Scheduler.poll Timer.routine (a.firingLimit cycles) cycles a.timers a.chip with
  | .error (fault, _) => .error (.timer fault)
  | .ok (timers, chip) =>
    .ok (chip.deckError, { a with timers, chip := { chip with deckError := none } })

/-- Cycles until the transmit register is empty; zero when it already is. -/
def transmitRemaining (a : Acia ρ) : Cycles :=
  (a.timers.occurrence? Timer.transmit.id).elim 0 (·.due - a.timers.epoch)

instance : Probed (Acia ρ) where
  probes := [
    ("status", fun a => .register a.chip.status.byte),
    ("control", fun a => .register a.chip.control),
    ("data", fun a => .register a.chip.data),
    ("irq", fun a => .flag a.chip.interruptActive),
    ("motor", fun a => .flag a.chip.motorOn),
    ("rs423", fun a => .flag a.chip.rs423Selected),
    ("tx_remaining", fun a => .count a.transmitRemaining.count),
    ("tape", fun a => .text (a.chip.deck.elim "none" (·.format.name)))]

end Acia

end Cassette
