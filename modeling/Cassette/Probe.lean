import Cassette.Cycles
import Cassette.Text.Hex

/-!
# Probes

A component publishes a fixed table of named probes.  Looking through a probe
gives a reading and changes nothing.

## Main definitions

* `Reading` — what a probe shows, and `Reading.render`, its text.
* `Probed` — a component with probes.
* `probe` — the reading of the probe of some name.
-/

namespace Cassette

/-- What a probe shows. -/
inductive Reading where
  /-- A line or a condition. -/
  | flag (level : Bool)
  /-- The contents of a register, shown in hexadecimal. -/
  | register (byte : UInt8)
  /-- A count of cycles or of things. -/
  | count (n : Nat)
  /-- A name. -/
  | text (s : String)
  deriving DecidableEq

/-- The text of a reading. -/
def Reading.render : Reading → String
  | .flag level => if level then "true" else "false"
  | .register byte => Text.Hex.byte byte
  | .count n => toString n
  | .text s => s

/-- A component whose state can be inspected by name. -/
class Probed (α : Type) where
  /-- The named probes, in the order in which they are published. -/
  probes : List (String × (α → Reading))

/-- The names of the probes of `α`. -/
def probeNames (α : Type) [Probed α] : List String :=
  (Probed.probes (α := α)).map (·.1)

/-- What the probe named `name` shows, if there is one. -/
def probe {α : Type} [Probed α] (a : α) (name : String) : Option Reading :=
  ((Probed.probes (α := α)).lookup name).map (· a)

end Cassette
