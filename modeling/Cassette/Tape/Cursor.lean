import Cassette.Tape.Error

/-!
# Reading an image from front to back

A cursor is what is left of a part of an image, with the offset that has been
reached.  A read either takes its bytes or leaves the cursor where it was; several
reads in a row keep what the earlier ones took, also when a later one fails.

## Main definitions

* `Cursor` — the bytes not yet read.
* `Cursor.take` — the next bytes, if there are enough.
* `Reader` — reads in a row.
* `littleEndian` — a number written least significant byte first.
-/

namespace Cassette.Tape

/-- A position in a part of an image. -/
structure Cursor where
  region : Region
  /-- The number of bytes before the position. -/
  offset : Nat
  /-- The bytes after the position. -/
  rest : List UInt8
  deriving DecidableEq

namespace Cursor

/-- The position `offset` of `bytes`. -/
def seek (region : Region) (bytes : List UInt8) (offset : Nat) : Cursor :=
  ⟨region, offset, bytes.drop offset⟩

/-- The start of `bytes`. -/
def start (region : Region) (bytes : List UInt8) : Cursor := ⟨region, 0, bytes⟩

/-- Everything has been read. -/
def atEnd (c : Cursor) : Bool := c.rest.isEmpty

/-- The position `n` bytes on. -/
def skip (c : Cursor) (n : Nat) : Cursor :=
  { c with offset := c.offset + n, rest := c.rest.drop n }

end Cursor

/-- There are `n` bytes or more. -/
def hasBytes : Nat → List UInt8 → Bool
  | 0, _ => true
  | _ + 1, [] => false
  | n + 1, _ :: rest => hasBytes n rest

theorem hasBytes_eq (n : Nat) (bytes : List UInt8) :
    hasBytes n bytes = decide (n ≤ bytes.length) := by
  induction n generalizing bytes with
  | zero => simp [hasBytes]
  | succ n ih => cases bytes <;> simp [hasBytes, ih]

/-- The number whose base-256 digits are `bytes`, least significant first. -/
def littleEndian : List UInt8 → Nat
  | [] => 0
  | b :: rest => b.toNat + 256 * littleEndian rest

/-- The low `count` base-256 digits of `n`, least significant first. -/
def littleEndianBytes : Nat → Nat → List UInt8
  | 0, _ => []
  | count + 1, n => UInt8.ofNat (n % 256) :: littleEndianBytes count (n / 256)

/-! ### Reads in a row -/

/-- A read: its result, and the cursor after it whatever the result. -/
def Reader (α : Type) : Type := Cursor → Except Error α × Cursor

instance : Monad Reader where
  pure a := fun c => (.ok a, c)
  bind r f := fun c =>
    match r c with
    | (.ok a, c) => f a c
    | (.error e, c) => (.error e, c)

namespace Reader

/-- The next `n` bytes. -/
def bytes (n : Nat) : Reader (List UInt8) := fun c =>
  if hasBytes n c.rest then (.ok (c.rest.take n), c.skip n)
  else (.error (.truncated c.region c.offset n c.rest.length), c)

/-- The number in the next `n` bytes. -/
def number (n : Nat) : Reader Nat := do return littleEndian (← bytes n)

/-- The next byte. -/
def byte : Reader UInt8 := do return UInt8.ofNat (← number 1)

/-- Give up. -/
def fail {α : Type} (e : Error) : Reader α := fun c => (.error e, c)

theorem bytes_ok {n : Nat} {c c' : Cursor} {taken : List UInt8}
    (h : bytes n c = (.ok taken, c')) : c.rest = taken ++ c'.rest ∧ taken.length = n := by
  unfold bytes at h
  rw [hasBytes_eq] at h
  split at h
  · next hn =>
    simp only [Prod.mk.injEq, Except.ok.injEq] at h
    obtain ⟨rfl, rfl⟩ := h
    exact ⟨(List.take_append_drop n c.rest).symm, List.length_take_of_le (by simpa using hn)⟩
  · simp at h

theorem bind_ok {α β : Type} {r : Reader α} {f : α → Reader β} {c c' : Cursor} {b : β}
    (h : (r >>= f) c = (.ok b, c')) : ∃ a c₁, r c = (.ok a, c₁) ∧ f a c₁ = (.ok b, c') := by
  change (match r c with | (.ok a, c) => f a c | (.error e, c) => (.error e, c)) = _ at h
  split at h
  · next a c₁ hr => exact ⟨a, c₁, hr, h⟩
  · simp at h

theorem number_ok {n m : Nat} {c c' : Cursor} (h : number n c = (.ok m, c')) :
    c.rest.length = n + c'.rest.length := by
  obtain ⟨taken, c₁, h1, h2⟩ := bind_ok h
  obtain ⟨hr, hl⟩ := bytes_ok h1
  obtain ⟨-, rfl⟩ := Prod.mk.inj h2
  rw [hr, List.length_append, hl]

theorem byte_ok {b : UInt8} {c c' : Cursor} (h : byte c = (.ok b, c')) :
    c.rest.length = 1 + c'.rest.length := by
  obtain ⟨m, c₁, h1, h2⟩ := bind_ok h
  obtain ⟨-, rfl⟩ := Prod.mk.inj h2
  exact number_ok h1

end Reader

end Cassette.Tape
