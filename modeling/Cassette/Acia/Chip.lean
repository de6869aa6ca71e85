import Cassette.Acia.Event
import Cassette.Acia.Registers
import Cassette.Tape.Run

/-!
# The chip and what is connected to it

The registers, the deck with its motor, the far end of the RS423 line, and what hears
the cassette: everything that the chip's timers can reach.  What happens on a cycle is
given that cycle, and goes on the trace with it.

## Main definitions

* `SerialPeer` — a device at the far end of the RS423 line.
* `Chip` — the chip with its devices, and `Chip.trace`, what has happened to it.
* `Chip.take` — the effect of a tape's signal.
* `Chip.pollTape`, `Chip.pollPeer` — one turn of the deck and of the RS423 line.
-/

namespace Cassette.Acia

/-- A device at the far end of the RS423 line. -/
class SerialPeer (ρ : Type) where
  /-- The byte that the device offers when it is asked, which may depend on the chip's
  request-to-send output, and the device after it. -/
  offer : ρ → Bool → Option UInt8 × ρ
  /-- The device after the machine has sent it a byte. -/
  hear : ρ → UInt8 → ρ

/-- The chip with its devices. -/
structure Chip (ρ : Type) where
  status : Status := {}
  control : UInt8 := 0
  data : UInt8 := 0
  clock : Clock
  /-- The receive side belongs to RS423, not to the cassette. -/
  rs423Selected : Bool := false
  motorOn : Bool := false
  /-- Bits in a second on the RS423 line. -/
  receiveRate : UInt32
  deck : Option Tape := none
  /-- Why the deck lost its tape, until it has been reported. -/
  deckError : Option Tape.Error := none
  peer : Option ρ := none
  /-- Something plays the cassette's tones. -/
  toneAttached : Bool := false
  /-- Something makes the noise of the motor relay. -/
  noiseAttached : Bool := false
  /-- What has happened, the newest first. -/
  moments : List Moment := []

namespace Chip

variable {ρ : Type}

/-- An event on cycle `now`. -/
def record (now : Cycles) (c : Chip ρ) (e : Event) : Chip ρ :=
  { c with moments := ⟨now, e⟩ :: c.moments }

/-- What has happened, in order. -/
def trace (c : Chip ρ) : List Moment := c.moments.reverse

/-- A byte arrives; one that has not been read is lost. -/
def receive (c : Chip ρ) (b : UInt8) : Chip ρ :=
  { c with data := b, status := c.status.receive }

/-- The carrier-detect input takes a level. -/
def setCarrier (c : Chip ρ) (level : Bool) : Chip ρ :=
  { c with status := c.status.setCarrier level }

/-- The chip requests an interrupt. -/
def interruptActive (c : Chip ρ) : Bool :=
  c.status.interrupt && Control.interruptEnabled c.control

/-- The status register as the machine reads it: an interrupt shows only when it is
enabled, and the transmit register counts as full while sending is held. -/
def shownStatus (c : Chip ρ) : Status :=
  { c.status with
    interrupt := c.interruptActive
    transmitEmpty := c.status.transmitEmpty && !c.status.sendHeld }

/-- The time of a character on the RS423 line, which is one cycle at least. -/
def byteTime (c : Chip ρ) : Cycles :=
  let t := c.clock.cyclesOfPeriods (UInt64.ofNat (Control.bitsPerByte c.control)).toFloat
    c.receiveRate.toUInt64.toFloat
  if t = 0 then 1 else t

/-! ### The cassette -/

/-- A tone for whatever plays tones; at zero hertz it falls silent. -/
def playTone (now : Cycles) (c : Chip ρ) (hertz : Binary32) : Chip ρ :=
  if !c.toneAttached then c
  else if hertz.isPositive then c.record now (.tone hertz)
  else c.record now .mute

/-- The carrier of the cassette, which reaches the chip only while the cassette is
selected. -/
def cassetteCarrier (c : Chip ρ) (level : Bool) : Chip ρ :=
  if c.rs423Selected then c else c.setCarrier level

/-- The effect of one signal of the tape in the deck. -/
def take (now : Cycles) (c : Chip ρ) (s : Tape.Signal) : Chip ρ :=
  let c := c.record now (.signal s)
  match s with
  | .byte b => c.receive b
  | .carrier level => c.cassetteCarrier level
  | .tone hertz => c.playTone now hertz
  | .note _ => c

/-- The effect of one unit of work.  A tape that cannot be played on is ejected. -/
def play (now : Cycles) (c : Chip ρ) (unit : Tape.Played Tape) : Chip ρ :=
  let c := unit.signals.foldl (take now) c
  match unit.delay with
  | .ok delay => { c with deck := some unit.tape }.record now (.pause delay)
  | .error e =>
    { c with deck := none, deckError := some e }.record now
      (.note (.ejecting unit.tape.format e))

/-- One turn of the deck: play the tape until it takes time.  The delay is missing when
there is nothing to play, or when the tape had to be ejected. -/
def pollTape (now : Cycles) (c : Chip ρ) : Option Cycles × Chip ρ :=
  match c.motorOn, c.deck with
  | true, some tape =>
    let units := tape.run c.control
    (units.getLast?.bind (·.delay.toOption), units.foldl (play now) c)
  | _, _ => (none, c)

/-! ### RS423 -/

/-- One turn of the line: ask the device for a byte. -/
def pollPeer [SerialPeer ρ] (now : Cycles) (c : Chip ρ) : Chip ρ :=
  match c.peer with
  | none => c
  | some peer =>
    let rts := Control.requestToSend c.control
    let (answer, peer) := SerialPeer.offer peer rts
    let c := { c with peer := some peer }.record now (.asked rts answer)
    answer.elim c c.receive

/-- Send a byte to the device, if RS423 is selected and there is one. -/
def transmit [SerialPeer ρ] (now : Cycles) (c : Chip ρ) (b : UInt8) : Chip ρ :=
  match c.rs423Selected, c.peer with
  | true, some peer =>
    { c with peer := some (SerialPeer.hear peer b) }.record now (.transmitted b)
  | _, _ => c

end Chip

end Cassette.Acia
