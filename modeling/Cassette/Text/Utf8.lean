/-!
# Reading UTF-8 that may be broken

Bytes become text whatever they are: a well-formed sequence is its character,
and each maximal piece that could have begun one but does not go on as one
becomes one replacement character.

## Main definitions

* `Pending` — a character some of whose bytes have been read.
* `begin?` — what a byte does between characters.
* `decodeLossy` — the text of a list of bytes.
-/

namespace Cassette.Text.Utf8

/-- The character that stands for an ill-formed piece. -/
def replacement : Char := '\uFFFD'

/-- A character of which at least one byte is still owed. -/
structure Pending where
  /-- Bytes owed after the next one. -/
  more : Nat
  /-- The least and the greatest byte that may come next. -/
  low : UInt8
  high : UInt8
  /-- The bits read so far. -/
  code : Nat

/-- What a byte is between two characters: a whole character, the first byte of a
longer one, or neither.  The second byte of some characters is confined, so that
no character has two spellings and no surrogate has any. -/
def begin? (b : UInt8) : Option (Char ⊕ Pending) :=
  let n := b.toNat
  if n < 0x80 then some (.inl (Char.ofNat n))
  else if n < 0xC2 then none
  else if n < 0xE0 then some (.inr ⟨0, 0x80, 0xBF, n - 0xC0⟩)
  else if n < 0xF0 then
    some (.inr ⟨1, if n = 0xE0 then 0xA0 else 0x80, if n = 0xED then 0x9F else 0xBF, n - 0xE0⟩)
  else if n < 0xF5 then
    some (.inr ⟨2, if n = 0xF0 then 0x90 else 0x80, if n = 0xF4 then 0x8F else 0xBF, n - 0xF0⟩)
  else none

/-- What the next byte does inside a character: it ends the character, carries it
on, or does not belong to it. -/
def Pending.accept? (p : Pending) (b : UInt8) : Option (Char ⊕ Pending) :=
  if p.low ≤ b && b ≤ p.high then
    let code := p.code * 64 + (b.toNat - 0x80)
    match p.more with
    | 0 => some (.inl (Char.ofNat code))
    | more + 1 => some (.inr ⟨more, 0x80, 0xBF, code⟩)
  else none

/-- The characters of `bytes`, read from inside the character `pending` if there is
one.  A byte that does not belong to the pending character ends its piece and is
read again between characters. -/
def decodeFrom : Option Pending → List UInt8 → List Char
  | none, [] => []
  | some _, [] => [replacement]
  | none, b :: rest =>
    match begin? b with
    | some (.inl c) => c :: decodeFrom none rest
    | some (.inr p) => decodeFrom (some p) rest
    | none => replacement :: decodeFrom none rest
  | some p, b :: rest =>
    match p.accept? b with
    | some (.inl c) => c :: decodeFrom none rest
    | some (.inr p') => decodeFrom (some p') rest
    | none =>
      match begin? b with
      | some (.inl c) => replacement :: c :: decodeFrom none rest
      | some (.inr p') => replacement :: decodeFrom (some p') rest
      | none => replacement :: replacement :: decodeFrom none rest

/-- The text of `bytes`. -/
def decodeLossy (bytes : List UInt8) : String := String.ofList (decodeFrom none bytes)

end Cassette.Text.Utf8
