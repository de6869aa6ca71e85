/-!
# Bit loops

A reader that goes round and round the first `length` bits of a byte buffer,
least significant bit of each byte first.  The length may stop short of the
buffer, which gives a partial last byte.  An empty loop reads as zeros without
end.

## Main definitions

* `BitLoop.take?` — a loop over the first bits of a buffer.
* `BitLoop.next` — one bit, and the loop after it.
* `BitLoop.compose` — several bits as one number, first bit most significant.
-/

namespace Cassette

/-- A position in a repeating sequence of bits. -/
structure BitLoop where
  bytes : Array UInt8
  /-- The number of bits in one round. -/
  length : Nat
  /-- The bit to be read next. -/
  position : Nat
  length_le : length ≤ 8 * bytes.size
  position_lt : position < length

namespace BitLoop

/-- Why a loop refuses a request. -/
inductive Fault where
  /-- More bits are asked for than the buffer holds. -/
  | bitLength (bits bytes : Nat)
  /-- More bits are asked for than a 32-bit word holds. -/
  | compose (count : Nat)
  deriving DecidableEq

/-- The text of a fault. -/
def Fault.message : Fault → String
  | .bitLength bits bytes => s!"bit length {bits} exceeds a {bytes}-byte buffer"
  | .compose count => s!"can't compose {count} bits into a u32"

/-- A loop of one bit, which is zero. -/
def zeros : BitLoop := ⟨#[0], 1, 0, by decide, by decide⟩

/-- A loop over the first `bits` bits of `bytes`; over no bits at all, the loop of
zeros. -/
def take? (bytes : Array UInt8) (bits : Nat) : Except Fault BitLoop :=
  if hz : bits = 0 then .ok zeros
  else if hb : bits ≤ 8 * bytes.size then .ok ⟨bytes, bits, 0, hb, by omega⟩
  else .error (.bitLength bits bytes.size)

/-- A loop over every bit of `bytes`. -/
def ofBytes (bytes : Array UInt8) : BitLoop :=
  if hz : bytes.size = 0 then zeros
  else ⟨bytes, 8 * bytes.size, 0, Nat.le_refl _, by omega⟩

/-- Bit `i` of a buffer, least significant bit of each byte first. -/
def bitAt (bytes : Array UInt8) (i : Nat) : Bool :=
  (bytes.getD (i / 8) 0).toNat.testBit (i % 8)

/-- The loop one bit further on. -/
def advance (s : BitLoop) : BitLoop :=
  if h : s.position + 1 < s.length then { s with position := s.position + 1, position_lt := h }
  else { s with position := 0, position_lt := by have := s.position_lt; omega }

/-- The bit under the reader, and the loop after it. -/
def next (s : BitLoop) : Bool × BitLoop :=
  (bitAt s.bytes s.position, s.advance)

/-- The number `acc` followed by the next `count` bits. -/
def appendBits : Nat → Nat → BitLoop → Nat × BitLoop
  | 0, acc, s => (acc, s)
  | count + 1, acc, s => appendBits count (2 * acc + s.next.1.toNat) s.next.2

/-- The next `count` bits as one number, the first of them most significant. -/
def compose (s : BitLoop) (count : Nat) : Except Fault (Nat × BitLoop) :=
  if count ≤ 32 then .ok (appendBits count 0 s) else .error (.compose count)

/-- The next `count` bits as one number, without moving. -/
def peek (s : BitLoop) (count : Nat) : Except Fault Nat :=
  (s.compose count).map (·.1)

/-! ### Where the reader stands -/

theorem position_advance (s : BitLoop) :
    s.advance.position = if s.position + 1 < s.length then s.position + 1 else 0 := by
  unfold advance; split <;> rfl

@[simp] theorem length_advance (s : BitLoop) : s.advance.length = s.length := by
  unfold advance; split <;> rfl

@[simp] theorem bytes_advance (s : BitLoop) : s.advance.bytes = s.bytes := by
  unfold advance; split <;> rfl

end BitLoop

end Cassette
