import Cassette.Tape.Error
import Cassette.Tape.Notice

/-!
# What a tape does when it is polled

A tape is polled whenever its last unit of work has finished on the wire.  A poll
gives the signals of the next unit in order and the time that the unit takes, or
the reason why the image cannot be played on, and the tape after it.
-/

namespace Cassette.Tape

/-- One thing that a tape does to the machine that plays it. -/
inductive Signal where
  /-- A whole byte has arrived. -/
  | byte (b : UInt8)
  /-- The carrier line takes a level. -/
  | carrier (level : Bool)
  /-- A tone plays from here on; at zero hertz there is silence. -/
  | tone (hertz : Binary32)
  /-- Something worth telling. -/
  | note (notice : Notice)
  deriving DecidableEq

/-- The outcome of one poll of a tape of type `τ`. -/
structure Played (τ : Type) where
  signals : List Signal
  /-- The time until the next poll is due; zero means at once. -/
  delay : Except Error Cycles
  tape : τ

/-- The same outcome for a tape seen as one of a wider type. -/
def Played.map {τ υ : Type} (f : τ → υ) (p : Played τ) : Played υ :=
  { signals := p.signals, delay := p.delay, tape := f p.tape }

/-- The delay when there is nothing left to play. -/
def idleDelay : Cycles := 100000

/-- The longest delay of a chunk; longer stretches are cut to it. -/
def maxDelay : Cycles := 0xFFFFFFFF

end Cassette.Tape
