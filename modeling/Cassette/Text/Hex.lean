/-!
# Hexadecimal text

A number in base sixteen with upper-case digits, marked `0x`, and filled with
zeros to a least number of digits.
-/

namespace Cassette.Text.Hex

/-- The upper-case digit of `d`, for `d` below sixteen. -/
def digit (d : Nat) : Char :=
  if d < 10 then Char.ofNat ('0'.toNat + d) else Char.ofNat ('A'.toNat + (d - 10))

/-- The last `count` base-sixteen digits of `n`, most significant first. -/
def digits : Nat → Nat → List Char
  | 0, _ => []
  | count + 1, n => digits count (n / 16) ++ [digit (n % 16)]

/-- A byte as `0x` and two digits. -/
def byte (b : UInt8) : String := "0x" ++ String.ofList (digits 2 b.toNat)

/-- A 16-bit word as `0x` and four digits. -/
def word (w : UInt16) : String := "0x" ++ String.ofList (digits 4 w.toNat)

end Cassette.Text.Hex
