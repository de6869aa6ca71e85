import Cassette.Tape.Signal

/-!
# The trace of the serial chip

Everything that passes between the chip and what is connected to it — the tape in the
deck, the device at the far end of the RS423 line, whatever plays the tones and makes the
noise of the motor — is an event on one trace, with the cycle on which it happens.

## Main definitions

* `Notice` — something worth telling about the deck.
* `Event` — something that passes.
* `Moment` — an event and its cycle.
-/

namespace Cassette.Acia

/-- Something worth telling about the deck. -/
inductive Notice where
  /-- Told while an image is opened. -/
  | opening (notice : Tape.Notice)
  | motor (on : Bool)
  | inserted (format : Tape.Format)
  | rewinding
  | ejecting (format : Tape.Format) (e : Tape.Error)
  deriving DecidableEq

namespace Notice

/-- How important a notice is. -/
def level : Notice → Level
  | .opening notice => notice.level
  | .ejecting .. => .warn
  | _ => .info

/-- The text of a notice. -/
def text : Notice → String
  | .opening notice => notice.text
  | .motor true => "Cassette motor on"
  | .motor false => "Cassette motor off"
  | .inserted format => s!"Inserted {format.name} tape"
  | .rewinding => "Rewinding tape"
  | .ejecting format e => s!"Ejecting {format.name} tape: {e.message}"

end Notice

/-- Something that passes between the chip and what is connected to it. -/
inductive Event where
  /-- The tape in the deck gives a signal. -/
  | signal (s : Tape.Signal)
  /-- The tape in the deck ends a unit of work that takes `delay`. -/
  | pause (delay : Cycles)
  /-- The RS423 device is asked for a byte, and answers. -/
  | asked (requestToSend : Bool) (answer : Option UInt8)
  /-- The RS423 device hears a byte. -/
  | transmitted (byte : UInt8)
  /-- The tone generator plays a tone. -/
  | tone (hertz : Binary32)
  /-- The tone generator falls silent. -/
  | mute
  /-- The motor relay is heard to close. -/
  | motorOn
  /-- The motor relay is heard to open. -/
  | motorOff
  | note (notice : Notice)
  deriving DecidableEq

/-- An event and the cycle on which it happens. -/
structure Moment where
  cycle : Cycles
  event : Event
  deriving DecidableEq

end Cassette.Acia
