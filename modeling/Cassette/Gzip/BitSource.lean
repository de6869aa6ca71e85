/-!
# Bits of a byte sequence

A compressed stream is read bit by bit, least significant bit of each byte first.
Numbers have their least significant bit first, too.

## Main definitions

* `BitSource` — the bits not yet read.
* `BitSource.next?`, `BitSource.number?` — one bit, and a number of several bits.
* `BitSource.size` — how many bits there are; every read makes it smaller.
-/

namespace Cassette.Gzip

/-- Bits still to be read: those left of the byte that has been begun, and the whole
bytes after it. -/
structure BitSource where
  held : List Bool
  bytes : List UInt8

namespace BitSource

/-- The bits of a byte, least significant first. -/
def byteBits (b : UInt8) : List Bool := (List.range 8).map b.toNat.testBit

/-- The bits of a list of bytes. -/
def ofBytes (bytes : List UInt8) : BitSource := ⟨[], bytes⟩

/-- The number of bits. -/
def size (s : BitSource) : Nat := s.held.length + 8 * s.bytes.length

/-- The next bit. -/
def next? (s : BitSource) : Option (Bool × BitSource) :=
  match s.held, s.bytes with
  | bit :: held, bytes => some (bit, ⟨held, bytes⟩)
  | [], b :: bytes => some (b.toNat.testBit 0, ⟨(byteBits b).tail, bytes⟩)
  | [], [] => none

/-- The number in the next `count` bits. -/
def number? : Nat → BitSource → Option (Nat × BitSource)
  | 0, s => some (0, s)
  | count + 1, s =>
    match s.next? with
    | none => none
    | some (bit, s) => (number? count s).map fun (n, s) => (bit.toNat + 2 * n, s)

/-- The whole bytes after the byte that has been begun. -/
def align (s : BitSource) : List UInt8 := s.bytes

theorem size_of_next? {s s' : BitSource} {bit : Bool} (h : s.next? = some (bit, s')) :
    s'.size + 1 = s.size := by
  unfold next? at h
  split at h
  · next hh => obtain ⟨rfl, rfl⟩ := by simpa using h
               simp only [size, hh, List.length_cons]; omega
  · next b bytes hh hb =>
    obtain ⟨rfl, rfl⟩ := by simpa using h
    simp only [size, hh, hb, byteBits, List.length_tail, List.length_map, List.length_range,
      List.length_nil, List.length_cons]
    omega
  · simp at h

theorem size_of_number? {count : Nat} {s s' : BitSource} {n : Nat}
    (h : number? count s = some (n, s')) : s'.size + count = s.size := by
  induction count generalizing s s' n with
  | zero => simp only [number?, Option.some.injEq, Prod.mk.injEq] at h; rw [h.2]; rfl
  | succ count ih =>
    unfold number? at h
    split at h
    · simp at h
    · next bit s₁ hs =>
      rw [Option.map_eq_some_iff] at h
      obtain ⟨⟨m, s₂⟩, hm, he⟩ := h
      simp only [Prod.mk.injEq] at he
      have h1 := size_of_next? hs
      have h2 := ih hm
      rw [← he.2]
      omega

end BitSource

end Cassette.Gzip
