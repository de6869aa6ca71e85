import Cassette.Gzip.BitSource

/-!
# Canonical Huffman codes

A canonical code is given by the length of each symbol's code word alone: shorter
words come before longer ones, and among words of one length the order is that of
the symbols.  A word is read bit by bit: after `l` bits the number of the word,
counted from the first word of that length, either falls among the symbols of that
length or is carried on to the next.

## Main definitions

* `HuffmanCode` — for each length the symbols whose words have it.
* `HuffmanCode.isComplete` — every sequence of bits begins with a word.
* `HuffmanCode.isUsable` — which codes a block may bring.
* `HuffmanCode.decode?` — the symbol of the word that the bits begin with.
-/

namespace Cassette.Gzip

/-- The symbols with words of one bit, of two bits, and so on. -/
structure HuffmanCode where
  rows : List (Array Nat)

namespace HuffmanCode

/-- The longest word. -/
def maxLength : Nat := 15

/-- The code in which symbol `i` has a word of `lengths[i]` bits, or none if that is
zero. -/
def ofLengths (lengths : List Nat) : HuffmanCode :=
  ⟨(List.range maxLength).map fun l =>
    ((lengths.zipIdx.filter (·.1 = l + 1)).map (·.2)).toArray⟩

/-- The number of symbols that have a word. -/
def used (code : HuffmanCode) : Nat := code.rows.foldl (· + ·.size) 0

/-- The share of all sequences of bits that begin with a word, in units of the longest
word's share. -/
def share (code : HuffmanCode) : Nat :=
  code.rows.foldl (fun share row => 2 * share + row.size) 0

/-- Words cover all sequences of bits, each one once. -/
def isComplete (code : HuffmanCode) : Bool := code.share = 1 <<< maxLength

/-- One symbol alone, with a word of one bit; the other bit begins no word. -/
def isSingleBit (code : HuffmanCode) : Bool :=
  code.used = 1 && code.share = 1 <<< (maxLength - 1)

/-- The code can be read with: it is complete, or has no symbol, or only one with a word
as short as can be. -/
def isUsable (code : HuffmanCode) : Bool :=
  code.isComplete || code.used = 0 || code.isSingleBit

/-- The symbol of the next word among `rows`, when the words of `rows` begin at number
`n` of those one bit shorter. -/
def decodeFrom? : List (Array Nat) → Nat → BitSource → Option (Nat × BitSource)
  | [], _, _ => none
  | row :: rows, n, s =>
    match s.next? with
    | none => none
    | some (bit, s) =>
      let n := 2 * n + bit.toNat
      if h : n < row.size then some (row[n], s) else decodeFrom? rows (n - row.size) s

/-- The symbol of the next word. -/
def decode? (code : HuffmanCode) (s : BitSource) : Option (Nat × BitSource) :=
  decodeFrom? code.rows 0 s

theorem size_of_decodeFrom? {rows : List (Array Nat)} {n : Nat} {s s' : BitSource} {symbol : Nat}
    (h : decodeFrom? rows n s = some (symbol, s')) : s'.size < s.size := by
  induction rows generalizing n s with
  | nil => simp [decodeFrom?] at h
  | cons row rows ih =>
    unfold decodeFrom? at h
    split at h
    · simp at h
    · next bit s₁ hs =>
      have h1 := BitSource.size_of_next? hs
      dsimp only at h
      split at h
      · simp only [Option.some.injEq, Prod.mk.injEq] at h
        rw [← h.2]; omega
      · have := ih h; omega

theorem size_of_decode? {code : HuffmanCode} {s s' : BitSource} {symbol : Nat}
    (h : code.decode? s = some (symbol, s')) : s'.size < s.size :=
  size_of_decodeFrom? h

end HuffmanCode

end Cassette.Gzip
