import Cassette.BitLoop
import Cassette.Proofs.Tape.Reading
import Cassette.Tape.Signal
import Cassette.Text.Utf8

/-!
# Byte streams

A decoder reads its image through a stream, which is all the bytes with a position among them, and
counts the bytes that are left by a difference.  A position past the last byte would be the end of
the program.  No read ever leads there: a stream does what the cursor at its position does, and a
read that finds too few bytes leaves the position where it was.

## Main definitions

* `Crash` — what would be the end of the program.
* `ByteStream` — bytes with a position, and `ByteStream.cursor`, what is left of them.
* `StreamReader` — reads of a stream in a row.
* `StreamReader.Follows` — reads of a stream that are those of its cursor.
* `Mirrors` — the poll of a decoder that reads a stream is that of a tape.

## Main results

* `Follows.bind`, `follows_bytes`, `follows_number`, `follows_byte` — reads follow each other.
* `text_eq` — so does a text.
-/

namespace Cassette.Tape

/-- What would be the end of the program, and not an answer. -/
inductive Crash where
  /-- A stream stands past its last byte. -/
  | position
  /-- A loop over more bits than its bytes have. -/
  | loop (fault : BitLoop.Fault)
  /-- A mask of more bits than a byte has. -/
  | mask
  /-- A counter that has no room for one more. -/
  | counter
  deriving DecidableEq

/-- A part of an image with a position in it. -/
structure ByteStream where
  region : Region
  bytes : List UInt8
  /-- The number of bytes before the position. -/
  position : Nat

namespace ByteStream

/-- Bytes from the first of them on. -/
def start (region : Region) (bytes : List UInt8) : ByteStream := ⟨region, bytes, 0⟩

/-- The stream at another position, or at its end if that is past it. -/
def seek (s : ByteStream) (position : Nat) : ByteStream :=
  { s with position := min position s.bytes.length }

/-- Everything has been read. -/
def atEnd (s : ByteStream) : Bool := s.bytes.length ≤ s.position

/-- The number of bytes that are left. -/
def remaining (s : ByteStream) : Except Crash Nat :=
  if s.position ≤ s.bytes.length then .ok (s.bytes.length - s.position) else .error .position

/-- The bytes that are left. -/
def rest (s : ByteStream) : List UInt8 := s.bytes.drop s.position

/-- What is left of the stream. -/
def cursor (s : ByteStream) : Cursor := .seek s.region s.bytes s.position

/-- The next `n` bytes, if there are enough. -/
def take (n : Nat) (s : ByteStream) : Except Crash (Except Error (List UInt8) × ByteStream) := do
  let remaining ← s.remaining
  if remaining < n then
    return (.error (.truncated s.region s.position n remaining), s)
  return (.ok (s.rest.take n), { s with position := s.position + n })

/-- The text up to a zero byte or the end, which is read with the zero. -/
def text (s : ByteStream) : Except Crash (String × ByteStream) := do
  let _ ← s.remaining
  let bytes := s.rest.takeWhile (· ≠ 0)
  return (Text.Utf8.decodeLossy bytes,
    { s with position := min (s.position + bytes.length + 1) s.bytes.length })

/-- The position is one of the bytes or the end. -/
def InRange (s : ByteStream) : Prop := s.position ≤ s.bytes.length

/-- The same bytes at another position, which is in range too. -/
structure Moved (s s' : ByteStream) : Prop where
  region : s'.region = s.region
  bytes : s'.bytes = s.bytes
  inRange : s'.InRange

variable {s s' s'' : ByteStream}

theorem Moved.refl (h : s.InRange) : s.Moved s := ⟨rfl, rfl, h⟩

theorem Moved.trans (h : s.Moved s') (h' : s'.Moved s'') : s.Moved s'' :=
  ⟨h'.region.trans h.region, h'.bytes.trans h.bytes, h'.inRange⟩

theorem inRange_start (region : Region) (bytes : List UInt8) : (start region bytes).InRange :=
  Nat.zero_le _

theorem moved_seek (s : ByteStream) (position : Nat) : s.Moved (s.seek position) :=
  ⟨rfl, rfl, Nat.min_le_right ..⟩

theorem cursor_start (region : Region) (bytes : List UInt8) :
    (start region bytes).cursor = .start region bytes := rfl

/-- A stream moves to where a cursor can be found. -/
theorem cursor_seek (s : ByteStream) (position : Nat) (h : position ≤ s.bytes.length) :
    (s.seek position).cursor = .seek s.region s.bytes position := by
  unfold cursor seek
  rw [Nat.min_eq_left h]

theorem atEnd_cursor (s : ByteStream) : s.cursor.atEnd = s.atEnd := by
  rw [Bool.eq_iff_iff]
  simp [Cursor.atEnd, cursor, Cursor.seek, atEnd, List.drop_eq_nil_iff]

theorem remaining_eq (h : s.InRange) : s.remaining = .ok s.rest.length := by
  have h : s.position ≤ s.bytes.length := h
  unfold remaining rest
  rw [if_pos h, List.length_drop]

theorem take_of_le (h : s.InRange) {n : Nat} (hn : n ≤ s.rest.length) :
    s.take n = .ok (.ok (s.rest.take n), { s with position := s.position + n }) := by
  unfold take
  rw [remaining_eq h]
  exact if_neg (Nat.not_lt.mpr hn)

/-- A read that finds too few bytes leaves the position where it is. -/
theorem take_of_lt (h : s.InRange) {n : Nat} (hn : s.rest.length < n) :
    s.take n = .ok (.error (.truncated s.region s.position n s.rest.length), s) := by
  unfold take
  rw [remaining_eq h]
  exact if_pos hn

/-- A text is read in any case. -/
theorem text_eq (h : s.InRange) :
    ∃ s', s.text = .ok (Text.Utf8.decodeLossy (s.rest.takeWhile (· ≠ 0)), s') ∧ s.Moved s' := by
  unfold text
  rw [remaining_eq h]
  exact ⟨_, rfl, rfl, rfl, Nat.min_le_right ..⟩

end ByteStream

/-! ### Reads in a row -/

/-- A read of a stream: its result, and the stream after it whatever the result. -/
def StreamReader (α : Type) : Type := ByteStream → Except Crash (Except Error α × ByteStream)

instance : Monad StreamReader where
  pure a := fun s => .ok (.ok a, s)
  bind r f := fun s =>
    match r s with
    | .ok (.ok a, s) => f a s
    | .ok (.error e, s) => .ok (.error e, s)
    | .error crash => .error crash

namespace StreamReader

/-- The next `n` bytes. -/
def bytes (n : Nat) : StreamReader (List UInt8) := ByteStream.take n

/-- The number in the next `n` bytes. -/
def number (n : Nat) : StreamReader Nat := do return littleEndian (← bytes n)

/-- The next byte. -/
def byte : StreamReader UInt8 := do return UInt8.ofNat (← number 1)

/-- Give up. -/
def fail {α : Type} (e : Error) : StreamReader α := fun s => .ok (.error e, s)

/-- From a position in range, the read comes to its end, and it is that of the cursor. -/
def Follows {α : Type} (r : StreamReader α) (q : Reader α) : Prop :=
  ∀ s : ByteStream, s.InRange →
    ∃ result s', r s = .ok (result, s') ∧ q s.cursor = (result, s'.cursor) ∧ s.Moved s'

section

variable {α β : Type}

theorem Follows.pure (a : α) : Follows (Pure.pure a) (Pure.pure a) :=
  fun s hs => ⟨.ok a, s, rfl, rfl, .refl hs⟩

theorem Follows.bind {r : StreamReader α} {q : Reader α} {f : α → StreamReader β}
    {g : α → Reader β} (h : Follows r q) (hf : ∀ a, Follows (f a) (g a)) :
    Follows (r >>= f) (q >>= g) := by
  intro s hs
  obtain ⟨result, s₁, hr, hq, hmoved⟩ := h s hs
  cases result with
  | error e =>
    refine ⟨.error e, s₁, ?_, Reader.bind_eq_of_error hq, hmoved⟩
    simp only [Bind.bind, hr]
  | ok a =>
    obtain ⟨result, s₂, hr', hq', hmoved'⟩ := hf a s₁ hmoved.inRange
    refine ⟨result, s₂, ?_, (Reader.bind_eq_of_ok hq).trans hq', hmoved.trans hmoved'⟩
    simp only [Bind.bind, hr, hr']

theorem follows_fail (e : Error) : Follows (fail e : StreamReader α) (Reader.fail e) :=
  fun s hs => ⟨.error e, s, rfl, rfl, .refl hs⟩

theorem follows_bytes (n : Nat) : Follows (bytes n) (Reader.bytes n) := by
  intro s hs
  by_cases hn : s.rest.length < n
  · exact ⟨_, s, ByteStream.take_of_lt hs hn, Reader.bytes_short (c := s.cursor) hn, .refl hs⟩
  · have hn := Nat.not_lt.mp hn
    refine ⟨_, _, ByteStream.take_of_le hs hn, (Reader.bytes_long (c := s.cursor) hn).trans ?_, rfl,
      rfl, ?_⟩
    · unfold ByteStream.cursor Cursor.skip Cursor.seek
      rw [List.drop_drop]
      rfl
    · unfold ByteStream.rest at hn
      rw [List.length_drop] at hn
      have hs : s.position ≤ s.bytes.length := hs
      change s.position + n ≤ s.bytes.length
      omega

theorem follows_number (n : Nat) : Follows (number n) (Reader.number n) :=
  (follows_bytes n).bind fun _ => .pure _

theorem follows_byte : Follows byte Reader.byte := (follows_number 1).bind fun _ => .pure _

/-- As long as something is left, there is a byte. -/
theorem byte_of_rest {s : ByteStream} (hs : s.InRange) {b : UInt8} {rest : List UInt8}
    (hrest : s.rest = b :: rest) :
    ∃ s', byte s = .ok (.ok b, s') ∧ s'.rest = rest ∧ s.Moved s' := by
  obtain ⟨result, s', hbyte, hcursor, hmoved⟩ := follows_byte s hs
  have hread : Reader.byte s.cursor = (.ok b, ⟨s.region, s.position + 1, rest⟩) := by
    rw [← Reader.byte_cons, ← hrest]
    rfl
  obtain ⟨rfl, hs'⟩ := Prod.mk.inj (hcursor.symm.trans hread)
  exact ⟨s', hbyte, congrArg Cursor.rest hs', hmoved⟩

/-- At the end of a stream there is none. -/
theorem byte_of_nil {s : ByteStream} (hs : s.InRange) (hrest : s.rest = []) :
    byte s = .ok (.error (.truncated s.region s.bytes.length 1 0), s) := by
  have hposition : s.position = s.bytes.length :=
    Nat.le_antisymm hs (List.drop_eq_nil_iff.mp hrest)
  have htake : s.take 1 = _ := ByteStream.take_of_lt hs (by rw [hrest]; decide)
  rw [hrest, hposition] at htake
  simp only [byte, number, bytes, bind, htake]
  rfl

end

end StreamReader

/-! ### Polls -/

/-- A poll of a decoder comes to its end and does what the poll of a tape does, and after it the
decoder stands for the tape. -/
def Mirrors {σ τ : Type} (stands : σ → τ → Prop) (p : Except Crash (Played σ)) (q : Played τ) :
    Prop :=
  ∃ p', p = .ok p' ∧ p'.signals = q.signals ∧ p'.delay = q.delay ∧ stands p'.tape q.tape

end Cassette.Tape
