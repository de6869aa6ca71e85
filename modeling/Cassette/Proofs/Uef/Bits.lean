import Cassette.BitLoop
import Cassette.Tape.Uef.Frame

/-!
# Frames on bit loops

The data cells of a byte are what a loop over its low bits gives in one round, and the dummy byte
is one round of a loop over two bytes.  No round asks for more bits than its buffer holds, so such
a loop is never refused.

## Main definitions

* `BitLoop.round` — so many bits in a row.
* `dummyFrame` — the two bytes of the dummy byte's frame.

## Main results

* `BitLoop.round_eq` — within a round every bit is the next of the buffer.
* `Framing.round_mask`, `round_dummyFrame` — the rounds of the frames.
-/

namespace Cassette

namespace BitLoop

/-- The next bits, so many of them. -/
def round : Nat → BitLoop → List Bool
  | 0, _ => []
  | count + 1, s => s.next.1 :: round count s.next.2

/-- Within a round the reader takes the bits of the buffer one after another. -/
theorem round_eq (s : BitLoop) {count : Nat} (h : s.position + count ≤ s.length) :
    s.round count = (List.range' s.position count).map (bitAt s.bytes) := by
  induction count generalizing s with
  | zero => rfl
  | succ count ih =>
    cases count with
    | zero => rfl
    | succ count =>
      have hposition : s.advance.position = s.position + 1 := by
        rw [position_advance, if_pos (by omega)]
      have hrest := ih s.advance (by rw [hposition, length_advance]; omega)
      rw [hposition, bytes_advance] at hrest
      rw [List.range'_succ, List.map_cons, ← hrest]
      rfl

/-- A buffer that is long enough gives a loop, and the round of it is its first bits. -/
theorem exists_round (bytes : Array UInt8) {bits : Nat} (h : bits ≤ 8 * bytes.size) :
    ∃ s, take? bytes bits = .ok s ∧ s.round bits = (List.range bits).map (bitAt bytes) := by
  unfold take?
  by_cases hzero : bits = 0
  · subst hzero
    exact ⟨zeros, rfl, rfl⟩
  · rw [dif_neg hzero, dif_pos h]
    refine ⟨_, rfl, ?_⟩
    rw [round_eq _ (Nat.le_of_eq (Nat.zero_add bits)), List.range_eq_range']

end BitLoop

namespace Tape.Uef

/-- The loop of a byte's data is never refused, and its round is the data cells of the byte. -/
theorem Framing.round_mask (f : Framing) (b : UInt8) :
    ∃ s, BitLoop.take? #[f.mask b] f.dataBits = .ok s ∧
      s.round f.dataBits = f.dataCells (f.mask b) := by
  have hbits := f.dataBits_le
  obtain ⟨s, hloop, hround⟩ := BitLoop.exists_round #[f.mask b] hbits
  refine ⟨s, hloop, hround.trans (List.map_congr_left fun i hi => ?_)⟩
  -- all the bits of the round are in the one byte
  have hi : i < 8 := Nat.lt_of_lt_of_le (List.mem_range.mp hi) hbits
  have hbyte : i / 8 = 0 := by omega
  have hbit : i % 8 = i := by omega
  rw [BitLoop.bitAt, hbyte, hbit]
  rfl

/-- The frame of the dummy byte in two bytes, in which a set bit sounds the base tone. -/
def dummyFrame : Array UInt8 := #[0x54, 0x03]

/-- Neither is the loop of the dummy byte, and its round is the ten cells the other way about. -/
theorem round_dummyFrame :
    ∃ s, BitLoop.take? dummyFrame 10 = .ok s ∧ s.round 10 = dummyCells.map not :=
  ⟨_, rfl, by decide⟩

end Tape.Uef

end Cassette
