import Cassette.BitLoop

/-!
# Bit loops in machine words

A reader that is built for speed finds its bit by a shift and a mask, and composes a number in a
word of 32 bits that it shifts to the left.  An index past the buffer would be the end of the
program, and a set bit that is shifted out of the word would be lost.  Neither happens: what such a
reader gives is what the loop gives that it holds.

## Main definitions

* `BitLoop.Registers` — a buffer, the number of bits in a round, and an index.
* `Registers.next`, `Registers.compose`, `Registers.peek` — the reads.
* `BitLoop.registers` — the registers that hold a loop.

## Main results

* `next_registers` — the index is one of the buffer, and the bit there is that of the loop.
* `compose_registers`, `peek_registers` — a word has room for all the bits that it is asked for.
-/

namespace Cassette

namespace BitLoop

/-- A buffer with the number of bits in a round and the index of the next. -/
structure Registers where
  bytes : Array UInt8
  length : Nat
  index : Nat

namespace Registers

/-- Registers over the first bits of a buffer, which has to hold so many; over no bits at all, over
one that is clear. -/
def take? (bytes : Array UInt8) (bits : Nat) : Option Registers :=
  if bits = 0 then some ⟨#[0], 1, 0⟩
  else if bits ≤ 8 * bytes.size then some ⟨bytes, bits, 0⟩
  else none

/-- The bit at the index, if that is one of the buffer, and the index of the next. -/
def next (r : Registers) : Option (Bool × Registers) := do
  let byte ← r.bytes[r.index >>> 3]?
  let bit := (byte >>> UInt8.ofNat (r.index &&& 7)) &&& 1 == 1
  let index := r.index + 1
  return (bit, { r with index := if index = r.length then 0 else index })

/-- A word with one more bit at its low end. -/
def shiftIn (word : UInt32) (bit : Bool) : UInt32 := (word <<< 1) ||| if bit then 1 else 0

/-- A word with the next `count` bits at its low end. -/
def append : Nat → UInt32 → Registers → Option (UInt32 × Registers)
  | 0, word, r => some (word, r)
  | count + 1, word, r => do
    let (bit, r) ← r.next
    append count (shiftIn word bit) r

/-- The next `count` bits as one word, if it has room for them. -/
def compose (r : Registers) (count : Nat) : Option (UInt32 × Registers) :=
  if count ≤ 32 then append count 0 r else none

/-- The next `count` bits as one word, after which the index is put back. -/
def peek (r : Registers) (count : Nat) : Option (UInt32 × Registers) := do
  let (word, r') ← r.compose count
  return (word, { r' with index := r.index })

end Registers

/-- The registers that hold a loop. -/
def registers (s : BitLoop) : Registers := ⟨s.bytes, s.length, s.position⟩

theorem take?_registers (bytes : Array UInt8) (bits : Nat) :
    Registers.take? bytes bits = (take? bytes bits).toOption.map registers := by
  unfold Registers.take? take?
  split
  · rfl
  · split <;> rfl

/-! ### Bits -/

/-- The bit under the reader lies in the buffer. -/
theorem position_div_lt (s : BitLoop) : s.position / 8 < s.bytes.size := by
  have hlength := s.length_le
  have hposition := s.position_lt
  omega

theorem shift_and_one (byte : UInt8) {i : Nat} (hi : i < 8) :
    ((byte >>> UInt8.ofNat i) &&& 1 == 1) = byte.toNat.testBit i := by
  have hshift : (UInt8.ofNat i).toNat % 8 = i := by
    rw [UInt8.toNat_ofNat']
    omega
  rw [Nat.testBit_eq_decide_div_mod_eq, Bool.eq_iff_iff, beq_iff_eq, decide_eq_true_eq,
    ← UInt8.toNat_inj, UInt8.toNat_and, UInt8.toNat_shiftRight, hshift, Nat.shiftRight_eq_div_pow]
  change _ &&& 1 = 1 ↔ _
  rw [Nat.and_one_is_mod]

/-- The index is one of the buffer, and the bit there is that of the loop. -/
theorem next_registers (s : BitLoop) : s.registers.next = some (s.next.1, s.next.2.registers) := by
  have hlt := s.position_div_lt
  have hbyte : s.bytes[s.position >>> 3]? = some (s.bytes.getD (s.position / 8) 0) := by
    rw [Nat.shiftRight_eq_div_pow, Array.getD_eq_getD_getElem?]
    change s.bytes[s.position / 8]? = _
    rw [Array.getElem?_eq_getElem hlt]
    rfl
  have hmask : s.position &&& 7 = s.position % 8 := Nat.and_two_pow_sub_one_eq_mod _ 3
  have hindex : (if s.position + 1 = s.length then 0 else s.position + 1) = s.advance.position := by
    have hposition := s.position_lt
    rw [position_advance]
    split <;> split <;> omega
  unfold Registers.next registers
  simp only [hbyte, hmask, hindex, shift_and_one _ (Nat.mod_lt _ (by decide : 0 < 8))]
  simp only [next, bitAt, bytes_advance, length_advance]
  rfl

/-! ### Words -/

/-- Composing a number changes neither the buffer nor the number of bits in a round. -/
theorem bytes_appendBits (count acc : Nat) (s : BitLoop) :
    (appendBits count acc s).2.bytes = s.bytes ∧ (appendBits count acc s).2.length = s.length := by
  induction count generalizing acc s with
  | zero => exact ⟨rfl, rfl⟩
  | succ count ih =>
    obtain ⟨hbytes, hlength⟩ := ih (2 * acc + s.next.1.toNat) s.next.2
    exact ⟨hbytes.trans s.bytes_advance, hlength.trans s.length_advance⟩

theorem toNat_shiftIn {word : UInt32} (h : word.toNat < 2147483648) (bit : Bool) :
    (Registers.shiftIn word bit).toNat = 2 * word.toNat + bit.toNat := by
  have hbit : (if bit then (1 : UInt32) else 0).toNat = bit.toNat := by cases bit <;> rfl
  have hshift : (word <<< 1).toNat = word.toNat <<< 1 := by
    rw [UInt32.toNat_shiftLeft]
    change word.toNat <<< 1 % 4294967296 = _
    rw [Nat.shiftLeft_eq]
    omega
  have hor := @Nat.shiftLeft_add_eq_or_of_lt 1 bit.toNat (by cases bit <;> decide) word.toNat
  unfold Registers.shiftIn
  rw [UInt32.toNat_or, hshift, hbit, ← hor, Nat.shiftLeft_eq]
  omega

/-- A word takes in bits as long as all of its own can move up. -/
theorem append_registers (count : Nat) (s : BitLoop) (word : UInt32)
    (h : (word.toNat + 1) <<< count ≤ 4294967296) :
    ∃ word' : UInt32,
      s.registers.append count word = some (word', (appendBits count word.toNat s).2.registers) ∧
        word'.toNat = (appendBits count word.toNat s).1 := by
  induction count generalizing s word with
  | zero => exact ⟨word, rfl, rfl⟩
  | succ count ih =>
    rw [Nat.shiftLeft_succ] at h
    have hup : word.toNat + 1 ≤ (word.toNat + 1) <<< count := Nat.le_shiftLeft
    have hword : (Registers.shiftIn word s.next.1).toNat = 2 * word.toNat + s.next.1.toNat :=
      toNat_shiftIn (by omega) s.next.1
    -- the bit that comes in is at most one, so the word after it is still low enough
    have hnext : (Registers.shiftIn word s.next.1).toNat + 1 ≤ 2 * (word.toNat + 1) := by
      have hbit : s.next.1.toNat ≤ 1 := Bool.toNat_le _
      omega
    obtain ⟨word', happend, hvalue⟩ := ih s.next.2 (Registers.shiftIn word s.next.1) (by
      refine Nat.le_trans ?_ h
      rw [Nat.shiftLeft_eq, Nat.shiftLeft_eq, ← Nat.mul_assoc]
      exact Nat.mul_le_mul_right _ hnext)
    rw [hword] at happend hvalue
    refine ⟨word', ?_, hvalue⟩
    simp only [Registers.append, next_registers, bind, Option.bind]
    exact happend

/-- A word has room for all the bits that it is asked for. -/
theorem compose_registers (s : BitLoop) {count : Nat} (h : count ≤ 32) :
    ∃ word : UInt32,
      s.registers.compose count = some (word, (appendBits count 0 s).2.registers) ∧
        word.toNat = (appendBits count 0 s).1 := by
  have hall : ∀ count ≤ 32, 1 <<< count ≤ 4294967296 := by decide
  unfold Registers.compose
  rw [if_pos h]
  exact append_registers count s 0 (hall count h)

/-- After a look ahead the index is where it was. -/
theorem peek_registers (s : BitLoop) {count : Nat} (h : count ≤ 32) :
    ∃ word : UInt32,
      s.registers.peek count = some (word, s.registers) ∧
        word.toNat = (appendBits count 0 s).1 := by
  obtain ⟨word, hcompose, hvalue⟩ := s.compose_registers h
  obtain ⟨hbytes, hlength⟩ := bytes_appendBits count 0 s
  refine ⟨word, ?_, hvalue⟩
  have hindex : { (appendBits count 0 s).2.registers with index := s.registers.index } =
      s.registers := by
    rw [registers, hbytes, hlength, registers]
  unfold Registers.peek
  rw [hcompose, ← hindex]
  rfl

end BitLoop

end Cassette
