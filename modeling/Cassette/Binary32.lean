import Cassette.Decimal.Shortest

/-!
# Binary32 numbers

The single-precision numbers of a tape image: durations in seconds and tones in
hertz.  A number is its bit pattern, so that equality is equality of bits and
doubling is a step on the exponent.

## Main definitions

* `Binary32.double` — twice a number.
* `Binary32.widen` — the same number in binary64.
* `Binary32.render` — the fewest digits that read back, written out in full.
-/

namespace Cassette

/-- A single-precision number, as its bits. -/
structure Binary32 where
  bits : UInt32
  deriving DecidableEq

namespace Binary32

/-- Positive zero. -/
def zero : Binary32 := ⟨0⟩

instance : Inhabited Binary32 := ⟨zero⟩

/-- The bit above the fraction, which a normal number has and does not write. -/
def hiddenBit : Nat := 0x800000

/-- The sign bit. -/
def negative (x : Binary32) : Bool := 0x80000000 ≤ x.bits.toNat

/-- The eight bits of the exponent. -/
def exponentField (x : Binary32) : Nat := x.bits.toNat >>> 23 % 256

/-- The 23 bits of the fraction. -/
def fraction (x : Binary32) : Nat := x.bits.toNat % hiddenBit

/-- Neither an infinity nor undefined. -/
def isFinite (x : Binary32) : Bool := x.exponentField < 255

/-- Either zero. -/
def isZero (x : Binary32) : Bool := x.exponentField = 0 && x.fraction = 0

/-- The number is undefined. -/
def isNaN (x : Binary32) : Bool := x.exponentField = 255 && x.fraction ≠ 0

/-- Above zero, infinity included. -/
def isPositive (x : Binary32) : Bool := !x.negative && !x.isZero && !x.isNaN

/-- Zero or above, where either zero counts. -/
def isNonnegative (x : Binary32) : Bool := x.isZero || x.isPositive

/-- The significand `m` and exponent `q` of the magnitude `m * 2 ^ q` of a finite number. -/
def magnitude (x : Binary32) : Nat × Int :=
  if x.exponentField = 0 then (x.fraction, -149)
  else (hiddenBit + x.fraction, x.exponentField - 150)

/-- Twice the number: a subnormal number shifts its fraction, which may carry it
into the normal ones; a normal number raises its exponent, past the last one to
infinity. -/
def double (x : Binary32) : Binary32 :=
  let sign := x.bits.toNat >>> 31 <<< 31
  if x.exponentField = 0 then ⟨UInt32.ofNat (sign + 2 * x.fraction)⟩
  else if x.exponentField = 255 then x
  else if x.exponentField = 254 then ⟨UInt32.ofNat (sign + 255 <<< 23)⟩
  else ⟨UInt32.ofNat (x.bits.toNat + 1 <<< 23)⟩

/-- The same number in binary64, which holds every binary32 number exactly. -/
def widen (x : Binary32) : Float :=
  let sign := x.bits.toNat >>> 31 <<< 63
  let pattern :=
    if x.exponentField = 255 then 2047 <<< 52 + x.fraction <<< 29
    else if x.exponentField ≠ 0 then (x.exponentField + 896) <<< 52 + x.fraction <<< 29
    else if x.fraction = 0 then 0
    else
      -- a subnormal number is normal in binary64: its leading bit becomes the hidden one
      let top := x.fraction.log2
      (top + 874) <<< 52 + (x.fraction - 1 <<< top) <<< (52 - top)
  Float.ofBits (UInt64.ofNat (sign + pattern))

/-! ### Text -/

/-- The numbers that read back as the magnitude of `x`: half a step up, and half a
step down, which is half as far below a power of two.  The ends belong to them
when the significand is even. -/
def readBack (x : Binary32) : Decimal.Interval :=
  let (m, q) := x.magnitude
  let scale := 1 <<< q.toNat
  let down := if x.fraction = 0 ∧ 1 < x.exponentField then 1 else 2
  { lower := (4 * m - down) * scale
    value := 4 * m * scale
    upper := (4 * m + 2) * scale
    denominator := 4 <<< (-q).toNat
    closed := m % 2 = 0 }

/-- The number with the fewest digits that read back, never with an exponent and
with no point after a whole number. -/
def render (x : Binary32) : String :=
  if x.isNaN then "NaN"
  else
    let sign := if x.negative then "-" else ""
    if !x.isFinite then sign ++ "inf"
    else if x.isZero then sign ++ "0"
    else sign ++ ((x.readBack.shortest 38 188).elim "" fun d => d.positional)

end Binary32

end Cassette
