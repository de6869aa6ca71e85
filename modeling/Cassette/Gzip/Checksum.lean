/-!
# The cyclic redundancy check of a byte sequence

The remainder of the sequence, as a polynomial over two elements with the bits of each
byte reflected, by the polynomial of degree 32 that compressed files use.
-/

namespace Cassette.Gzip

/-- The polynomial, reflected and without its leading term. -/
def checkPolynomial : UInt32 := 0xEDB88320

/-- Divide by the next `n` powers. -/
def reduce : Nat → UInt32 → UInt32
  | 0, c => c
  | n + 1, c => reduce n (if c &&& 1 = 1 then (c >>> 1) ^^^ checkPolynomial else c >>> 1)

/-- The check of a list of bytes. -/
def crc32 (bytes : List UInt8) : UInt32 :=
  bytes.foldl (fun c b => reduce 8 (c ^^^ b.toUInt32)) 0xFFFFFFFF ^^^ 0xFFFFFFFF

end Cassette.Gzip
