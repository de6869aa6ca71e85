import Cassette.Gzip.HuffmanCode

/-!
# Inflating

A deflated stream is a sequence of blocks, each stored as it is or written in a pair
of Huffman codes, one for literal bytes and lengths of copies and one for distances of
copies.  A copy may reach back before the first byte, where everything is zero, and
may overlap what it writes.

## Main definitions

* `copyBack` — a copy from what has been written.
* `inflateSymbols`, `inflateStored` — the contents of a block.
* `Codes.read?` — the codes of a block that brings its own.
* `inflate` — a whole stream, with the bytes after it.
-/

namespace Cassette.Gzip

/-- Write `length` bytes, each the one that lies `distance` before it. -/
def copyBack (distance : Nat) : Nat → Array UInt8 → Array UInt8
  | 0, out => out
  | length + 1, out =>
    let b := if distance ≤ out.size then out.getD (out.size - distance) 0 else 0
    copyBack distance length (out.push b)

/-- The codes of a block. -/
structure Codes where
  literals : HuffmanCode
  distances : HuffmanCode

/-! ### Lengths and distances -/

/-- The least length of each length symbol and the bits that are added to it. -/
def lengthTable : List (Nat × Nat) := [
  (3, 0), (4, 0), (5, 0), (6, 0), (7, 0), (8, 0), (9, 0), (10, 0), (11, 1), (13, 1), (15, 1),
  (17, 1), (19, 2), (23, 2), (27, 2), (31, 2), (35, 3), (43, 3), (51, 3), (59, 3), (67, 4),
  (83, 4), (99, 4), (115, 4), (131, 5), (163, 5), (195, 5), (227, 5), (258, 0)]

/-- The least distance of each distance symbol and the bits that are added to it. -/
def distanceTable : List (Nat × Nat) := [
  (1, 0), (2, 0), (3, 0), (4, 0), (5, 1), (7, 1), (9, 2), (13, 2), (17, 3), (25, 3), (33, 4),
  (49, 4), (65, 5), (97, 5), (129, 6), (193, 6), (257, 7), (385, 7), (513, 8), (769, 8),
  (1025, 9), (1537, 9), (2049, 10), (3073, 10), (4097, 11), (6145, 11), (8193, 12), (12289, 12),
  (16385, 13), (24577, 13)]

/-- The number that a symbol and the bits after it stand for. -/
def extended? (table : List (Nat × Nat)) (symbol : Nat) (s : BitSource) :
    Option (Nat × BitSource) :=
  match table[symbol]? with
  | none => none
  | some (least, bits) => (BitSource.number? bits s).map fun (n, s) => (least + n, s)

theorem size_of_extended? {table : List (Nat × Nat)} {symbol n : Nat} {s s' : BitSource}
    (h : extended? table symbol s = some (n, s')) : s'.size ≤ s.size := by
  unfold extended? at h
  split at h
  · simp at h
  · rw [Option.map_eq_some_iff] at h
    obtain ⟨⟨m, s₂⟩, hm, he⟩ := h
    have := BitSource.size_of_number? hm
    simp only [Prod.mk.injEq] at he
    rw [← he.2]; omega

/-! ### The contents of a block -/

/-- The symbol that ends a block; those below it are bytes, those above it lengths. -/
def endOfBlock : Nat := 256

/-- The length and the distance of the copy that a length symbol begins. -/
def copy? (codes : Codes) (symbol : Nat) (s : BitSource) : Option ((Nat × Nat) × BitSource) := do
  let (length, s) ← extended? lengthTable (symbol - (endOfBlock + 1)) s
  let (far, s) ← codes.distances.decode? s
  let (distance, s) ← extended? distanceTable far s
  return ((length, distance), s)

theorem size_of_copy? {codes : Codes} {symbol : Nat} {s s' : BitSource} {copy : Nat × Nat}
    (h : copy? codes symbol s = some (copy, s')) : s'.size ≤ s.size := by
  unfold copy? at h
  simp only [Option.bind_eq_bind, Option.bind_eq_some_iff, Option.pure_def, Option.some.injEq,
    Prod.mk.injEq, Prod.exists] at h
  obtain ⟨_, s₁, h1, _, s₂, h2, _, s₃, h3, -, rfl⟩ := h
  have := size_of_extended? h1
  have := HuffmanCode.size_of_decode? h2
  have := size_of_extended? h3
  omega

set_option maxRecDepth 2000 in
/-- Symbols up to the one that ends the block. -/
def inflateSymbols (codes : Codes) (s : BitSource) (out : Array UInt8) :
    Option (Array UInt8 × BitSource) :=
  match hs : codes.literals.decode? s with
  | none => none
  | some (symbol, s₁) =>
    have := HuffmanCode.size_of_decode? hs
    if symbol < endOfBlock then inflateSymbols codes s₁ (out.push (UInt8.ofNat symbol))
    else if symbol = endOfBlock then some (out, s₁)
    else
      match hc : copy? codes symbol s₁ with
      | none => none
      | some ((length, distance), s₂) =>
        have := size_of_copy? hc
        inflateSymbols codes s₂ (copyBack distance length out)
termination_by s.size

/-- The number in the first two of a list of bytes, least significant first. -/
def word? : List UInt8 → Option (Nat × List UInt8)
  | a :: b :: rest => some (a.toNat + 256 * b.toNat, rest)
  | _ => none

/-- Bytes stored as they are, after their number and its complement. -/
def inflateStored (s : BitSource) (out : Array UInt8) : Option (Array UInt8 × BitSource) := do
  let (length, rest) ← word? s.align
  let (complement, rest) ← word? rest
  if length + complement ≠ 0xFFFF then none
  let stored := rest.take length
  if stored.length ≠ length then none
  return (out ++ stored, .ofBytes (rest.drop length))

/-! ### The codes of a block -/

/-- The codes of a block that brings none. -/
def Codes.fixed : Codes :=
  { literals := .ofLengths
      (List.replicate 144 8 ++ List.replicate 112 9 ++ List.replicate 24 7 ++ List.replicate 8 8)
    distances := .ofLengths (List.replicate 32 5) }

/-- The order in which a block gives the lengths of the code for lengths. -/
def lengthOrder : List Nat := [16, 17, 18, 0, 8, 7, 9, 6, 10, 5, 11, 4, 12, 3, 13, 2, 14, 1, 15]

/-- The next `count` numbers of three bits. -/
def triples? : Nat → BitSource → Option (List Nat × BitSource)
  | 0, s => some ([], s)
  | count + 1, s => do
    let (n, s) ← BitSource.number? 3 s
    let (ns, s) ← triples? count s
    return (n :: ns, s)

/-- The code for lengths, of which the first `count` lengths in their order follow.
It has to be complete. -/
def lengthCode? (count : Nat) (s : BitSource) : Option (HuffmanCode × BitSource) := do
  let (given, s) ← triples? count s
  let code := HuffmanCode.ofLengths
    ((List.range 19).map fun symbol => ((lengthOrder.zip given).lookup symbol).getD 0)
  if code.isComplete then return (code, s) else none

/-- Lengths in the code for lengths, appended to `found` until there are `total`.  Three
symbols repeat: the last length, or zeros. -/
def lengths? (code : HuffmanCode) (total : Nat) (s : BitSource) (found : Array Nat) :
    Option (Array Nat × BitSource) :=
  if total ≤ found.size then if found.size = total then some (found, s) else none
  else
    match hs : code.decode? s with
    | none => none
    | some (symbol, s₁) =>
      have := HuffmanCode.size_of_decode? hs
      if symbol < 16 then lengths? code total s₁ (found.push symbol)
      else
        let (bits, least, length) :=
          if symbol = 16 then (2, 3, found.back?)
          else if symbol = 17 then (3, 3, some 0)
          else (7, 11, some 0)
        match length, hn : BitSource.number? bits s₁ with
        | some length, some (n, s₂) =>
          have := BitSource.size_of_number? hn
          lengths? code total s₂ (found ++ List.replicate (least + n) length)
        | _, _ => none
termination_by s.size

/-- The codes of a block that brings its own. -/
def Codes.read? (s : BitSource) : Option (Codes × BitSource) := do
  let (literals, s) ← BitSource.number? 5 s
  let (distances, s) ← BitSource.number? 5 s
  let (count, s) ← BitSource.number? 4 s
  let literals := literals + 257
  let distances := distances + 1
  if 286 < literals || 30 < distances then none
  let (code, s) ← lengthCode? (count + 4) s
  let (lengths, s) ← lengths? code (literals + distances) s #[]
  let codes : Codes := {
    literals := .ofLengths (lengths.toList.take literals)
    distances := .ofLengths (lengths.toList.drop literals) }
  if codes.literals.isUsable && codes.distances.isUsable then return (codes, s) else none

/-! ### A whole stream -/

/-- One block, and whether it is the last. -/
def inflateBlock (s : BitSource) (out : Array UInt8) : Option (Bool × Array UInt8 × BitSource) := do
  let (final, s) ← s.next?
  let (kind, s) ← BitSource.number? 2 s
  let (out, s) ← match kind with
    | 0 => inflateStored s out
    | 1 => inflateSymbols .fixed s out
    | 2 => do
      let (codes, s) ← Codes.read? s
      inflateSymbols codes s out
    | _ => none
  return (final, out, s)

/-- Blocks up to the last one.  Every block takes bits, so `limit` blocks are enough
for a source of `limit` bits. -/
def inflateBlocks : Nat → BitSource → Array UInt8 → Option (Array UInt8 × BitSource)
  | 0, _, _ => none
  | limit + 1, s, out =>
    match inflateBlock s out with
    | none => none
    | some (true, out, s) => some (out, s)
    | some (false, out, s) => inflateBlocks limit s out

/-- The contents of a deflated stream, and the bytes after it. -/
def inflate (bytes : List UInt8) : Option (Array UInt8 × List UInt8) :=
  let s := BitSource.ofBytes bytes
  (inflateBlocks s.size s #[]).map fun (out, s) => (out, s.align)

end Cassette.Gzip
