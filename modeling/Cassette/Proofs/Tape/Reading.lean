import Cassette.Tape.Uef.Basic

/-!
# Reading what has been written

What the reads of a cursor give on bytes that are there, and on bytes that are not; and
that the reader of a chunk takes up exactly the bytes of its encoding.

## Main results

* `littleEndian_bytes`, `bytes_littleEndian` — a number is read back from its digits, and its
  digits are the bytes it was read from.
* `Reader.number_skip`, `Reader.number_cut` — a number at a position, which is all there or not.
* `Chunk.read_encode` — so is a chunk, with whatever stands after it.
-/

namespace Cassette.Tape

/-! ### Numbers -/

@[simp] theorem length_littleEndianBytes (count n : Nat) :
    (littleEndianBytes count n).length = count := by
  induction count generalizing n with
  | zero => rfl
  | succ count ih => simp [littleEndianBytes, ih]

theorem littleEndian_bytes {count n : Nat} (h : n < Nat.pow 256 count) :
    littleEndian (littleEndianBytes count n) = n := by
  induction count generalizing n with
  | zero =>
    have h : n < 1 := h
    simp only [littleEndianBytes, littleEndian]
    omega
  | succ count ih =>
    have h : n < Nat.pow 256 count * 256 := h
    simp only [littleEndianBytes, littleEndian, UInt8.toNat_ofNat']
    rw [ih (Nat.div_lt_of_lt_mul (by rwa [Nat.mul_comm] at h))]
    omega

theorem littleEndian_lt (bytes : List UInt8) : littleEndian bytes < Nat.pow 256 bytes.length := by
  induction bytes with
  | nil => exact Nat.one_pos
  | cons b bytes ih =>
    have hb := b.toNat_lt
    show b.toNat + 256 * littleEndian bytes < Nat.pow 256 bytes.length * 256
    omega

theorem bytes_littleEndian (bytes : List UInt8) :
    littleEndianBytes bytes.length (littleEndian bytes) = bytes := by
  induction bytes with
  | nil => rfl
  | cons b bytes ih =>
    have hb := b.toNat_lt
    have hlow : (b.toNat + 256 * littleEndian bytes) % 256 = b.toNat := by omega
    have hhigh : (b.toNat + 256 * littleEndian bytes) / 256 = littleEndian bytes := by omega
    show UInt8.ofNat ((b.toNat + 256 * littleEndian bytes) % 256)
      :: littleEndianBytes bytes.length ((b.toNat + 256 * littleEndian bytes) / 256) = _
    rw [hlow, hhigh, ih, UInt8.ofNat_toNat]

/-- The first bytes of some make a number that they are the digits of. -/
theorem littleEndian_take {bytes : List UInt8} (count : Nat) (h : count ≤ bytes.length) :
    littleEndian (bytes.take count) < Nat.pow 256 count ∧
      littleEndianBytes count (littleEndian (bytes.take count)) = bytes.take count := by
  have hlt := littleEndian_lt (bytes.take count)
  have hdigits := bytes_littleEndian (bytes.take count)
  rw [List.length_take_of_le h] at hlt hdigits
  exact ⟨hlt, hdigits⟩

/-! ### Single reads -/

theorem Cursor.skip_skip (c : Cursor) (m n : Nat) : (c.skip m).skip n = c.skip (m + n) := by
  unfold skip
  rw [List.drop_drop, Nat.add_assoc]

namespace Reader

theorem bytes_long {c : Cursor} {n : Nat} (h : n ≤ c.rest.length) :
    bytes n c = (.ok (c.rest.take n), c.skip n) := by
  unfold bytes
  rw [hasBytes_eq, decide_eq_true h]
  rfl

theorem bytes_append (region : Region) (offset : Nat) (taken rest : List UInt8) :
    bytes taken.length ⟨region, offset, taken ++ rest⟩
      = (.ok taken, ⟨region, offset + taken.length, rest⟩) := by
  unfold bytes
  rw [hasBytes_eq]
  simp [Cursor.skip]

theorem bytes_short {c : Cursor} {n : Nat} (h : c.rest.length < n) :
    bytes n c = (.error (.truncated c.region c.offset n c.rest.length), c) := by
  unfold bytes
  rw [hasBytes_eq, decide_eq_false (by omega)]
  rfl

theorem bind_eq_of_ok {α β : Type} {r : Reader α} {f : α → Reader β} {c c' : Cursor} {a : α}
    (h : r c = (.ok a, c')) : (r >>= f) c = f a c' := by
  simp only [bind, h]

theorem bind_eq_of_error {α β : Type} {r : Reader α} {f : α → Reader β} {c c' : Cursor}
    {e : Error} (h : r c = (.error e, c')) : (r >>= f) c = (.error e, c') := by
  simp only [bind, h]

theorem number_append (region : Region) (offset : Nat) (taken rest : List UInt8) :
    number taken.length ⟨region, offset, taken ++ rest⟩
      = (.ok (littleEndian taken), ⟨region, offset + taken.length, rest⟩) :=
  bind_eq_of_ok (bytes_append region offset taken rest)

theorem number_short {c : Cursor} {n : Nat} (h : c.rest.length < n) :
    number n c = (.error (.truncated c.region c.offset n c.rest.length), c) :=
  bind_eq_of_error (bytes_short h)

theorem byte_cons {region : Region} {offset : Nat} (b : UInt8) (rest : List UInt8) :
    byte ⟨region, offset, b :: rest⟩ = (.ok b, ⟨region, offset + 1, rest⟩) := by
  have h : number 1 ⟨region, offset, b :: rest⟩ = (.ok (littleEndian [b]), _) :=
    number_append region offset [b] rest
  refine (bind_eq_of_ok h).trans ?_
  change (Except.ok (UInt8.ofNat (b.toNat + 256 * 0)), _) = _
  simp

theorem byte_nil {region : Region} {offset : Nat} :
    byte ⟨region, offset, []⟩ = (.error (.truncated region offset 1 0), ⟨region, offset, []⟩) :=
  bind_eq_of_error (number_short (by simp))

/-! ### Reads at a position -/

section

variable {c : Cursor} {start n : Nat}

theorem number_skip (h : start + n ≤ c.rest.length) :
    number n (c.skip start)
      = (.ok (littleEndian ((c.rest.drop start).take n)), c.skip (start + n)) := by
  have hfits : n ≤ (c.rest.drop start).length := by
    rw [List.length_drop]
    omega
  have hread : bytes n (c.skip start) = (_, (c.skip start).skip n) := bytes_long hfits
  rw [Cursor.skip_skip] at hread
  exact bind_eq_of_ok hread

theorem bytes_cut (hstart : start ≤ c.rest.length) (h : c.rest.length < start + n) :
    bytes n (c.skip start)
      = (.error (.truncated c.region (c.offset + start) n (c.rest.length - start)),
          c.skip start) := by
  have hshort : (c.rest.drop start).length < n := by
    rw [List.length_drop]
    omega
  refine (bytes_short hshort).trans ?_
  show (Except.error (Error.truncated _ _ _ (c.rest.drop start).length), _) = _
  rw [List.length_drop]
  rfl

theorem number_cut (hstart : start ≤ c.rest.length) (h : c.rest.length < start + n) :
    number n (c.skip start)
      = (.error (.truncated c.region (c.offset + start) n (c.rest.length - start)),
          c.skip start) :=
  bind_eq_of_error (bytes_cut hstart h)

end

end Reader

/-! ### Chunks -/

namespace Uef

@[simp] theorem Chunk.length_encode (c : Chunk) : c.encode.length = 6 + c.payload.length := by
  simp [Chunk.encode]
  omega

/-- A chunk is read back from its bytes, whatever stands after them. -/
theorem Chunk.read_encode (region : Region) (offset : Nat) (c : Chunk) (rest : List UInt8)
    (h : c.payload.length < 0x100000000) :
    Chunk.read ⟨region, offset, c.encode ++ rest⟩
      = (.ok c, ⟨region, offset + c.encode.length, rest⟩) := by
  have hid : c.id.toNat < 0x10000 := c.id.toNat_lt
  have h1 := Reader.number_append region offset (littleEndianBytes 2 c.id.toNat)
    (littleEndianBytes 4 c.payload.length ++ (c.payload ++ rest))
  have h2 := Reader.number_append region (offset + 2) (littleEndianBytes 4 c.payload.length)
    (c.payload ++ rest)
  have h3 := Reader.bytes_append region (offset + 2 + 4) c.payload rest
  rw [length_littleEndianBytes, littleEndian_bytes hid] at h1
  rw [length_littleEndianBytes, littleEndian_bytes h] at h2
  have hoffset : offset + c.encode.length = offset + 2 + 4 + c.payload.length := by
    rw [length_encode]
    omega
  rw [hoffset]
  unfold Chunk.encode
  rw [List.append_assoc, List.append_assoc]
  refine (Reader.bind_eq_of_ok h1).trans ?_
  refine (Reader.bind_eq_of_ok h2).trans ?_
  refine (Reader.bind_eq_of_ok h3).trans ?_
  change (Except.ok (Chunk.mk (UInt16.ofNat c.id.toNat) c.payload), _) = _
  rw [UInt16.ofNat_toNat]

theorem Chunk.encode_ne_nil (c : Chunk) : c.encode ≠ [] := by
  intro h
  have h := congrArg List.length h
  simp [Chunk.encode] at h

end Uef

end Cassette.Tape
