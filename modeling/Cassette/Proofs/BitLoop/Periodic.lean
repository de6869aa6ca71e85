import Cassette.Proofs.BitLoop.Words
import Mathlib.Algebra.BigOperators.Ring.Finset
import Mathlib.Tactic.Ring

/-!
# Bit loops as periodic sequences

A loop over the first `n` bits of a buffer reads the sequence whose `i`-th bit is bit `i % n` of the
buffer.  However the reads of one bit, of several and the looks ahead follow one another, each
answer depends on that sequence and on how many bits were consumed before, and on nothing else; so
the bits of the buffer past the `n`-th come into no answer.

## Main definitions

* `BitLoop.Call`, `BitLoop.Answer` — what is asked of a reader, and what it says.
* `BitLoop.number` — consecutive bits of a sequence as one number.
* `BitLoop.readings` — the answers and positions that a periodic sequence gives.
* `BitLoop.Through` — the reader is so many bits into a sequence.

## Main results

* `Through.next`, `Through.appendBits`, `Through.ask` — one bit, several, and any one call.
* `Through.answers` — any calls, one after another.
* `answers_eq_readings` — whatever is asked of a loop over a buffer.
-/

namespace Cassette

namespace BitLoop

/-- What can be asked of a reader of bits. -/
inductive Call where
  /-- The next bit. -/
  | bit
  /-- The next `count` bits as one number. -/
  | compose (count : Nat)
  /-- The same, without moving. -/
  | peek (count : Nat)
  deriving DecidableEq

/-- What a reader of bits says. -/
inductive Answer where
  | bit (bit : Bool)
  | number (value : Nat)
  deriving DecidableEq

/-- How many bits a call composes into a word. -/
def Call.count : Call → Nat
  | .bit => 0
  | .compose count | .peek count => count

/-- How many bits a call leaves behind it. -/
def Call.consumed : Call → Nat
  | .bit => 1
  | .compose count => count
  | .peek _ => 0

/-- One call, and the loop after it. -/
def ask (s : BitLoop) : Call → Except Fault (Answer × BitLoop)
  | .bit => .ok (.bit s.next.1, s.next.2)
  | .compose count => (s.compose count).map fun (value, s) => (.number value, s)
  | .peek count => (s.peek count).map fun value => (.number value, s)

/-- One call to registers, and the registers after it. -/
def Registers.ask (r : Registers) : Call → Option (Answer × Registers)
  | .bit => r.next.map fun (bit, r) => (.bit bit, r)
  | .compose count => (r.compose count).map fun (word, r) => (.number word.toNat, r)
  | .peek count => (r.peek count).map fun (word, r) => (.number word.toNat, r)

section Sequence

variable {m : Type → Type} [Monad m] {σ : Type}

/-- The answers to calls, each with the position that the reader has after it. -/
def answersBy (ask : σ → Call → m (Answer × σ)) (position : σ → Nat) :
    σ → List Call → m (List (Answer × Nat))
  | _, [] => pure []
  | s, call :: calls => do
    let (answer, s) ← ask s call
    let rest ← answersBy ask position s calls
    return (answer, position s) :: rest

end Sequence

/-- The answers of a loop. -/
def answers (s : BitLoop) (calls : List Call) : Except Fault (List (Answer × Nat)) :=
  answersBy ask position s calls

/-- The answers of registers. -/
def Registers.answers (r : Registers) (calls : List Call) : Option (List (Answer × Nat)) :=
  answersBy Registers.ask index r calls

/-! ### Sequences of bits -/

/-- `count` bits of a sequence as one number, the first of them most significant. -/
def number (bit : Nat → Bool) (k count : Nat) : Nat :=
  ∑ i ∈ Finset.range count, (bit (k + i)).toNat * 2 ^ (count - 1 - i)

/-- What a call finds `k` bits into a sequence. -/
def Call.answer (bit : Nat → Bool) (k : Nat) : Call → Answer
  | .bit => .bit (bit k)
  | .compose count | .peek count => .number (number bit k count)

/-- What a call finds where no bit is set. -/
def Call.clear : Call → Answer
  | .bit => .bit false
  | .compose _ | .peek _ => .number 0

/-- What calls find from `k` bits into a sequence on, each with the place in the period after it. -/
def readings (bit : Nat → Bool) (period : Nat) : Nat → List Call → List (Answer × Nat)
  | _, [] => []
  | k, call :: calls =>
    (call.answer bit k, (k + call.consumed) % period) ::
      readings bit period (k + call.consumed) calls

/-- The first of the bits is above all the others. -/
theorem number_succ (bit : Nat → Bool) (k count : Nat) :
    number bit k (count + 1) = (bit k).toNat * 2 ^ count + number bit (k + 1) count := by
  unfold number
  rw [Finset.sum_range_succ', Nat.add_comm]
  congr 1
  refine Finset.sum_congr rfl fun i _ => ?_
  have hplace : k + (i + 1) = k + 1 + i := by omega
  have hweight : count + 1 - 1 - (i + 1) = count - 1 - i := by omega
  rw [hplace, hweight]

theorem answer_clear (k : Nat) (call : Call) : call.answer (fun _ => false) k = call.clear := by
  have hnumber (count : Nat) : number (fun _ => false) k count = 0 :=
    Finset.sum_eq_zero fun i _ => Nat.zero_mul _
  cases call with
  | bit => rfl
  | compose count => exact congrArg Answer.number (hnumber count)
  | peek count => exact congrArg Answer.number (hnumber count)

theorem readings_clear (k : Nat) (calls : List Call) :
    readings (fun _ => false) 1 k calls = calls.map fun call => (call.clear, 0) := by
  induction calls generalizing k with
  | nil => rfl
  | cons call calls ih => rw [readings, answer_clear, Nat.mod_one, ih, List.map_cons]

/-! ### A reader in a sequence -/

/-- The loop goes round a sequence with a period, and is `k` bits into it. -/
structure Through (s : BitLoop) (bit : Nat → Bool) (period k : Nat) : Prop where
  length : s.length = period
  bits : ∀ i, bit i = bitAt s.bytes (i % period)
  position : s.position = k % period

namespace Through

variable {s : BitLoop} {bit : Nat → Bool} {period k : Nat}

/-- The bit under the reader is that of the sequence, and the next of the sequence follows it. -/
theorem next (h : s.Through bit period k) :
    s.next.1 = bit k ∧ s.next.2.Through bit period (k + 1) := by
  have hlt := s.position_lt
  rw [h.length, h.position] at hlt
  refine ⟨?_, ?_, ?_, ?_⟩
  · rw [h.bits k, ← h.position]
    rfl
  · exact s.length_advance.trans h.length
  · intro i
    rw [h.bits i]
    exact congrArg (bitAt · (i % period)) s.bytes_advance.symm
  · -- the index goes back to the first bit exactly where the period is full
    change s.advance.position = _
    rw [position_advance, h.length, h.position, Nat.add_mod k 1 period]
    rcases Nat.lt_or_ge (k % period + 1) period with hin | hfull
    · have hone : 1 % period = 1 := Nat.mod_eq_of_lt (by omega)
      rw [if_pos hin, hone, Nat.mod_eq_of_lt hin]
    · have hend : k % period + 1 = period := by omega
      rw [if_neg (by omega), Nat.add_mod_mod, hend, Nat.mod_self]

/-- The bits of the sequence come in below those that were there. -/
theorem appendBits (h : s.Through bit period k) (count acc : Nat) :
    (BitLoop.appendBits count acc s).1 = acc * 2 ^ count + number bit k count ∧
      (BitLoop.appendBits count acc s).2.Through bit period (k + count) := by
  induction count generalizing s k acc with
  | zero => exact ⟨(Nat.mul_one acc).symm, h⟩
  | succ count ih =>
    obtain ⟨hbit, hnext⟩ := h.next
    obtain ⟨hvalue, hthrough⟩ := ih hnext (2 * acc + s.next.1.toNat)
    constructor
    · calc (BitLoop.appendBits (count + 1) acc s).1
          = (2 * acc + s.next.1.toNat) * 2 ^ count + number bit (k + 1) count := hvalue
        _ = acc * 2 ^ (count + 1) + number bit k (count + 1) := by
            rw [number_succ, hbit]
            ring
    · rw [Nat.add_right_comm, Nat.add_assoc] at hthrough
      exact hthrough

theorem value_appendBits (h : s.Through bit period k) (count : Nat) :
    (BitLoop.appendBits count 0 s).1 = number bit k count := by
  obtain ⟨hvalue, -⟩ := h.appendBits count 0
  rw [hvalue, Nat.zero_mul, Nat.zero_add]

theorem compose_eq (h : s.Through bit period k) {count : Nat} (hcount : count ≤ 32) :
    s.compose count = .ok (number bit k count, (BitLoop.appendBits count 0 s).2) := by
  rw [BitLoop.compose, if_pos hcount, ← h.value_appendBits]

/-- A loop answers a call as the sequence does, and so do the registers that hold it. -/
theorem ask (h : s.Through bit period k) {call : Call} (hcall : call.count ≤ 32) :
    ∃ s', s.ask call = .ok (call.answer bit k, s') ∧
      s.registers.ask call = some (call.answer bit k, s'.registers) ∧
      s'.Through bit period (k + call.consumed) := by
  cases call with
  | bit =>
    obtain ⟨hbit, hnext⟩ := h.next
    refine ⟨s.next.2, ?_, ?_, hnext⟩
    · rw [BitLoop.ask, hbit]
      rfl
    · rw [Registers.ask, next_registers, hbit]
      rfl
  | compose count =>
    have hcount : count ≤ 32 := hcall
    obtain ⟨word, hcompose, hword⟩ := s.compose_registers hcount
    rw [h.value_appendBits] at hword
    refine ⟨(BitLoop.appendBits count 0 s).2, ?_, ?_, (h.appendBits count 0).2⟩
    · rw [BitLoop.ask, h.compose_eq hcount]
      rfl
    · rw [Registers.ask, hcompose, Call.answer, ← hword]
      rfl
  | peek count =>
    have hcount : count ≤ 32 := hcall
    obtain ⟨word, hpeek, hword⟩ := s.peek_registers hcount
    rw [h.value_appendBits] at hword
    refine ⟨s, ?_, ?_, h⟩
    · rw [BitLoop.ask, BitLoop.peek, h.compose_eq hcount]
      rfl
    · rw [Registers.ask, hpeek, Call.answer, ← hword]
      rfl

/-- Whatever is asked of the reader, and however often, it answers as the sequence does. -/
theorem answers (h : s.Through bit period k) {calls : List Call}
    (hcalls : ∀ call ∈ calls, call.count ≤ 32) :
    s.answers calls = .ok (readings bit period k calls) ∧
      s.registers.answers calls = some (readings bit period k calls) := by
  induction calls generalizing s k with
  | nil => exact ⟨rfl, rfl⟩
  | cons call calls ih =>
    obtain ⟨hcall, hrest⟩ := List.forall_mem_cons.mp hcalls
    obtain ⟨s', hask, hregisters, hthrough⟩ := h.ask hcall
    obtain ⟨hanswers, hindex⟩ := ih hthrough hrest
    unfold BitLoop.answers at hanswers ⊢
    unfold Registers.answers at hindex ⊢
    rw [answersBy, answersBy, hask, hregisters, readings, ← hthrough.position]
    constructor
    · change (answersBy BitLoop.ask _ s' calls >>= fun rest => _) = _
      rw [hanswers]
      rfl
    · change (answersBy Registers.ask _ s'.registers calls >>= fun rest => _) = _
      rw [hindex]
      rfl

end Through

/-! ### Loops over a buffer -/

/-- A loop over some bits of a buffer starts out in the sequence that repeats them. -/
theorem exists_through {bytes : Array UInt8} {bits : Nat} (hpos : 0 < bits)
    (hbits : bits ≤ 8 * bytes.size) :
    ∃ s, take? bytes bits = .ok s ∧ Registers.take? bytes bits = some s.registers ∧
      s.Through (fun i => bitAt bytes (i % bits)) bits 0 := by
  have hzero : bits ≠ 0 := by omega
  have htake : take? bytes bits = .ok ⟨bytes, bits, 0, hbits, hpos⟩ := by
    rw [take?, dif_neg hzero, dif_pos hbits]
  refine ⟨⟨bytes, bits, 0, hbits, hpos⟩, htake, ?_, rfl, fun i => rfl, (Nat.zero_mod bits).symm⟩
  rw [take?_registers, htake]
  rfl

/-- The loop of zeros starts out in the sequence of them. -/
theorem through_zeros : zeros.Through (fun _ => false) 1 0 := by
  refine ⟨rfl, fun i => ?_, rfl⟩
  rw [Nat.mod_one]
  rfl

/-- A loop over all the bits of a buffer is never refused. -/
theorem take?_ofBytes (bytes : Array UInt8) :
    take? bytes (8 * bytes.size) = .ok (ofBytes bytes) := by
  unfold take? ofBytes
  by_cases hzero : bytes.size = 0
  · rw [dif_pos hzero, dif_pos (by omega)]
  · rw [dif_neg hzero, dif_neg (by omega), dif_pos (Nat.le_refl _)]

/-- A loop reads the bits it was taken over, round and round: whatever is asked of it, no other bit
of the buffer comes into an answer.  A loop over no bits reads zeros and stays where it is. -/
theorem answers_eq_readings (bytes : Array UInt8) {calls : List Call}
    (hcalls : ∀ call ∈ calls, call.count ≤ 32) :
    (∀ bits, 0 < bits → bits ≤ 8 * bytes.size → ∃ s r,
      take? bytes bits = .ok s ∧ Registers.take? bytes bits = some r ∧
      s.position = 0 ∧ r.index = 0 ∧
      s.answers calls = .ok (readings (fun i => bitAt bytes (i % bits)) bits 0 calls) ∧
      r.answers calls = some (readings (fun i => bitAt bytes (i % bits)) bits 0 calls) ∧
      ∀ bytes' : Array UInt8, bits ≤ 8 * bytes'.size →
        (∀ i < bits, bitAt bytes' i = bitAt bytes i) → ∃ s' r',
          take? bytes' bits = .ok s' ∧ Registers.take? bytes' bits = some r' ∧
          s'.answers calls = s.answers calls ∧ r'.answers calls = r.answers calls) ∧
    (∃ s r, take? bytes 0 = .ok s ∧ Registers.take? bytes 0 = some r ∧
      s.position = 0 ∧ r.index = 0 ∧
      s.answers calls = .ok (calls.map fun call => (call.clear, 0)) ∧
      r.answers calls = some (calls.map fun call => (call.clear, 0))) ∧
    take? bytes (8 * bytes.size) = .ok (ofBytes bytes) := by
  refine ⟨fun bits hpos hbits => ?_, ?_, take?_ofBytes bytes⟩
  · obtain ⟨s, htake, hregisters, hthrough⟩ := exists_through hpos hbits
    have hposition : s.position = 0 := hthrough.position.trans (Nat.zero_mod bits)
    obtain ⟨hanswers, hindex⟩ := hthrough.answers hcalls
    refine ⟨s, s.registers, htake, hregisters, hposition, hposition, hanswers, hindex, ?_⟩
    intro bytes' hbits' hagree
    -- the two buffers repeat one and the same sequence
    have hsequence : (fun i => bitAt bytes' (i % bits)) = fun i => bitAt bytes (i % bits) :=
      funext fun i => hagree (i % bits) (Nat.mod_lt i hpos)
    obtain ⟨s', htake', hregisters', hthrough'⟩ := exists_through hpos hbits'
    rw [hsequence] at hthrough'
    obtain ⟨hanswers', hindex'⟩ := hthrough'.answers hcalls
    exact ⟨s', s'.registers, htake', hregisters', hanswers'.trans hanswers.symm,
      hindex'.trans hindex.symm⟩
  · obtain ⟨hanswers, hindex⟩ := through_zeros.answers hcalls
    rw [readings_clear] at hanswers hindex
    exact ⟨zeros, zeros.registers, rfl, rfl, rfl, rfl, hanswers, hindex⟩

/-- Eleven bits in two bytes, gone round four times; the five others of the second byte are clear in
one buffer and set in the other. -/
theorem answers_eleven : ∃ s r s',
    take? #[0xB1, 0x05] 11 = .ok s ∧ Registers.take? #[0xB1, 0x05] 11 = some r ∧
      take? #[0xB1, 0xFD] 11 = .ok s' ∧
      s.answers [.bit, .peek 16, .compose 32, .bit, .compose 12] =
        .ok [(.bit true, 1), (.number 0x1B63, 1), (.number 0x1B636C6D, 0), (.bit true, 1),
          (.number 0x1B6, 2)] ∧
      r.answers [.bit, .peek 16, .compose 32, .bit, .compose 12] =
        some [(.bit true, 1), (.number 0x1B63, 1), (.number 0x1B636C6D, 0), (.bit true, 1),
          (.number 0x1B6, 2)] ∧
      s'.answers [.bit, .peek 16, .compose 32, .bit, .compose 12] =
        s.answers [.bit, .peek 16, .compose 32, .bit, .compose 12] := by
  have hcalls : ∀ call ∈ [Call.bit, .peek 16, .compose 32, .bit, .compose 12],
      call.count ≤ 32 := by decide
  obtain ⟨hloops, -, -⟩ := answers_eq_readings #[0xB1, 0x05] hcalls
  obtain ⟨s, r, htake, hregisters, -, -, hanswers, hindex, hothers⟩ :=
    hloops 11 (by decide) (by decide)
  obtain ⟨s', -, htake', -, hsame, -⟩ := hothers #[0xB1, 0xFD] (by decide) (by decide)
  refine ⟨s, r, s', htake, hregisters, htake', hanswers.trans ?_, hindex.trans ?_, hsame⟩
  · exact congrArg Except.ok (by decide +kernel)
  · exact congrArg some (by decide +kernel)

end BitLoop

end Cassette
