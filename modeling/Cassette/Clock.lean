import Cassette.Cycles

/-!
# The master clock

Every count of cycles in a machine is measured against one clock.  Durations in
seconds and in periods of a waveform become whole cycles of it by binary64
arithmetic from left to right, truncated; a negative or undefined duration is no
cycles, and one past the end of time is the end of time.
-/

namespace Cassette

/-- The clock that cycles are counted on. -/
structure Clock where
  /-- Cycles in a second. -/
  frequency : UInt64
  deriving DecidableEq

namespace Clock

/-- Two million cycles in a second. -/
def standard : Clock := ⟨2000000⟩

instance : Inhabited Clock := ⟨standard⟩

/-- The whole cycles in `seconds`. -/
def cyclesOfSeconds (clock : Clock) (seconds : Float) : Cycles :=
  Cycles.ofUInt64 (clock.frequency.toFloat * seconds).toUInt64

/-- The whole cycles in `periods` periods of a waveform of `hertz`. -/
def cyclesOfPeriods (clock : Clock) (periods hertz : Float) : Cycles :=
  Cycles.ofUInt64 (clock.frequency.toFloat * periods / hertz).toUInt64

end Clock

end Cassette
