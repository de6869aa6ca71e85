/-!
# Cycles

A count of master clock cycles, used for positions on the virtual clock and for
delays alike.  Counts fit 64 bits and stay there: a sum past the end of time is
the end of time, and a difference below zero is zero.  The count itself is a
natural number with its bound, so that statements about time are statements of
`Nat` arithmetic.

## Main definitions

* `Cycles` — a count of cycles below `Cycles.size`.
* `Cycles.ofNat` — the count nearest to a natural number.
* `Cycles.last` — the end of time.
* `Cycles.render` — the count with its unit.
-/

namespace Cassette

/-- A count of master clock cycles. -/
structure Cycles where
  count : Nat
  lt_size : count < 0x10000000000000000
  deriving DecidableEq

namespace Cycles

/-- The number of representable counts. -/
abbrev size : Nat := 0x10000000000000000

/-- The count nearest to `n`: `n` itself, or the end of time. -/
def ofNat (n : Nat) : Cycles := ⟨min n 0xFFFFFFFFFFFFFFFF, by omega⟩

/-- The end of time, where the clock stands still. -/
def last : Cycles := ⟨0xFFFFFFFFFFFFFFFF, by decide⟩

/-- The count held in a 64-bit word. -/
def ofUInt64 (w : UInt64) : Cycles := ⟨w.toNat, w.toNat_lt⟩

instance (n : Nat) : OfNat Cycles n := ⟨ofNat n⟩

instance : Inhabited Cycles := ⟨0⟩

/-- A delay that reaches past the end of time lands at the end of time. -/
instance : Add Cycles := ⟨fun a b => ofNat (a.count + b.count)⟩

/-- A delay cannot be negative. -/
instance : Sub Cycles := ⟨fun a b => ⟨a.count - b.count, by have := a.lt_size; omega⟩⟩

instance : LT Cycles := ⟨fun a b => a.count < b.count⟩

instance : LE Cycles := ⟨fun a b => a.count ≤ b.count⟩

instance (a b : Cycles) : Decidable (a < b) := inferInstanceAs (Decidable (a.count < b.count))

instance (a b : Cycles) : Decidable (a ≤ b) := inferInstanceAs (Decidable (a.count ≤ b.count))

instance : Min Cycles := ⟨fun a b => if a ≤ b then a else b⟩

instance : Ord Cycles := ⟨fun a b => compare a.count b.count⟩

/-- The count followed by its unit. -/
def render (t : Cycles) : String := s!"{t.count} cycles"

/-! ### The count of each operation -/

@[ext] theorem ext {a b : Cycles} (h : a.count = b.count) : a = b := by
  cases a; cases b; simp_all

@[simp] theorem count_ofNat (n : Nat) : (ofNat n).count = min n 0xFFFFFFFFFFFFFFFF := rfl

theorem count_ofUInt64 (w : UInt64) : (ofUInt64 w).count = w.toNat := rfl

@[simp] theorem count_last : last.count = 0xFFFFFFFFFFFFFFFF := rfl

@[simp] theorem count_add (a b : Cycles) :
    (a + b).count = min (a.count + b.count) 0xFFFFFFFFFFFFFFFF := rfl

theorem add_zero (a : Cycles) : a + 0 = a := ext (Nat.min_eq_left (Nat.le_of_lt_succ a.lt_size))

@[simp] theorem count_sub (a b : Cycles) : (a - b).count = a.count - b.count := rfl

theorem lt_iff {a b : Cycles} : a < b ↔ a.count < b.count := Iff.rfl

theorem le_iff {a b : Cycles} : a ≤ b ↔ a.count ≤ b.count := Iff.rfl

end Cycles

end Cassette
