import Cassette.Binary32
import Cassette.Tape.Notice

/-!
# Frames of bits

A byte travels as a frame of cells: a start cell, the data bits from the least
significant up, perhaps a parity cell, and stop cells.  A clear cell is one period
of the base tone and a set cell is two periods of its double, so that every cell
takes one period of the base tone.

## Main definitions

* `Parity`, `Framing` — the format of a frame.
* `Framing.cells` — the frame of a byte.
* `cellTone` — the tone of a cell.
-/

namespace Cassette.Tape.Uef

/-- Whether a parity cell follows the data, and what it makes the count of set cells. -/
inductive Parity where
  | none
  | odd
  | even
  deriving DecidableEq

namespace Parity

/-- The parity that a letter names. -/
def ofLetter? (letter : UInt8) : Option Parity :=
  if letter = 0x4E then some .none
  else if letter = 0x4F then some .odd
  else if letter = 0x45 then some .even
  else Option.none

/-- The letter that names a parity. -/
def letter : Parity → Char
  | .none => 'N'
  | .odd => 'O'
  | .even => 'E'

/-- The parity cells after the given data cells. -/
def cells : Parity → List Bool → List Bool
  | .none, _ => []
  | .odd, data => [data.count true % 2 = 0]
  | .even, data => [data.count true % 2 = 1]

end Parity

/-- The format of a frame. -/
structure Framing where
  dataBits : Nat
  parity : Parity
  stopBits : UInt8
  dataBits_le : dataBits ≤ 8
  deriving DecidableEq

namespace Framing

/-- Eight data bits, no parity and one stop bit. -/
def standard : Framing := ⟨8, .none, 1, by decide⟩

/-- The part of a byte that fits a frame. -/
def mask (f : Framing) (b : UInt8) : UInt8 := UInt8.ofNat (b.toNat % 1 <<< f.dataBits)

/-- The data cells of a byte. -/
def dataCells (f : Framing) (b : UInt8) : List Bool :=
  (List.range f.dataBits).map b.toNat.testBit

/-- The frame of a byte. -/
def cells (f : Framing) (b : UInt8) : List Bool :=
  false :: (f.dataCells b ++ f.parity.cells (f.dataCells b) ++ List.replicate f.stopBits.toNat true)

/-- The number of cells of a frame. -/
def length (f : Framing) : Nat :=
  1 + f.dataBits + (if f.parity = .none then 0 else 1) + f.stopBits.toNat

@[simp] theorem length_cells (f : Framing) (b : UInt8) : (f.cells b).length = f.length := by
  unfold cells length dataCells
  cases hp : f.parity <;> simp [Parity.cells] <;> omega

theorem length_le (f : Framing) : f.length ≤ 265 := by
  have h1 := f.dataBits_le
  have h2 := f.stopBits.toNat_lt
  unfold length
  split <;> omega

end Framing

/-- The byte inside a carrier. -/
def dummyByte : UInt8 := 0xAA

/-- The frame of the dummy byte, which is sent with its cells inverted. -/
def dummyCells : List Bool := (Framing.standard.cells dummyByte).map not

/-- The tone of a cell over a base tone. -/
def cellTone (base : Binary32) (cell : Bool) : Binary32 := if cell then base.double else base

end Cassette.Tape.Uef
