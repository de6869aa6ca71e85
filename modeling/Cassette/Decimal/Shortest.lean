/-!
# Shortest decimals

A number is known up to an interval around it, and is to be written with the
fewest digits that still name a point of the interval.  The decimal grids are
tried from the coarsest down; on each only the two points around the number can
be the nearest ones.  The first grid with a point in the interval has the
fewest digits, the nearer of its two points is taken, and of two points equally
near the upper one.

## Main definitions

* `Interval` — a number and the ends of its interval over one denominator.
* `Interval.onGrid` — the point of one grid that stands for the number.
* `Interval.shortest` — the point of the first grid that has one.
* `Decimal.positional` — a decimal written out without an exponent.
-/

namespace Cassette

/-- The number `coefficient * 10 ^ exponent`. -/
structure Decimal where
  coefficient : Nat
  exponent : Int
  deriving DecidableEq

namespace Decimal

/-- A number between two ends, all three over one denominator. -/
structure Interval where
  lower : Nat
  value : Nat
  upper : Nat
  denominator : Nat
  /-- Whether the ends belong to the interval. -/
  closed : Bool

namespace Interval

/-- `c * unit / scale` lies in the interval. -/
def holds (x : Interval) (scale unit c : Nat) : Bool :=
  if x.closed then x.lower * scale ≤ c * unit && c * unit ≤ x.upper * scale
  else x.lower * scale < c * unit && c * unit < x.upper * scale

/-- The multiple of `10 ^ t` in the interval that is nearest to the number. -/
def onGrid (x : Interval) (t : Int) : Option Decimal :=
  let scale := Nat.pow 10 (-t).toNat
  let unit := x.denominator * Nat.pow 10 t.toNat
  let below := x.value * scale / unit
  match x.holds scale unit below, x.holds scale unit (below + 1) with
  | true, true =>
    some ⟨if 2 * (x.value * scale) < (2 * below + 1) * unit then below else below + 1, t⟩
  | true, false => some ⟨below, t⟩
  | false, true => some ⟨below + 1, t⟩
  | false, false => none

/-- The point on the coarsest grid that has one, among the grids `10 ^ top`,
`10 ^ (top - 1)` and so on. -/
def shortest (x : Interval) (top : Int) (grids : Nat) : Option Decimal :=
  (List.range grids).findSome? fun (i : Nat) => x.onGrid (top - i)

end Interval

/-- The decimal written out, with a point only where there are places after it. -/
def positional (d : Decimal) : String :=
  let digits := (toString d.coefficient).toList
  if 0 ≤ d.exponent then String.ofList (digits ++ List.replicate d.exponent.toNat '0')
  else
    let places := (-d.exponent).toNat
    let filled := List.replicate (places + 1 - digits.length) '0' ++ digits
    let whole := filled.length - places
    String.ofList (filled.take whole ++ '.' :: filled.drop whole)

end Decimal

end Cassette
