import Cassette.Proofs.Board.Regular
import Cassette.Proofs.Uef.Bits

/-!
# No history faults

Whatever a guest writes and whatever image is played, the chip asks its scheduler for nothing that
breaks the scheduler's contract, and looks nothing up that its tables do not hold.  A history runs
to its end, as long as it sets no receive rate of zero and lets no time pass up to the end of time.

## Main definitions

* `elapsed` — the time that passes in a history.
* `Charted` — what is looked up has an entry in its table.

## Main results

* `Reachable.charted` — every state of a board is charted.
* `Reachable.exists_run` — from every state a history runs to its end.
* `never_faults` — **a board that is set up in order never faults.**
-/

namespace Cassette.Board

variable {ρ : Type}

/-- The time that an operation lets pass. -/
def Operation.elapsed : Operation ρ → Nat
  | .poll cycles => cycles.count
  | _ => 0

/-- The time that passes in a history. -/
def elapsed : List (Operation ρ) → Nat
  | [] => 0
  | op :: ops => op.elapsed + elapsed ops

/-- Below the end of time the clock goes on by what an operation lets pass. -/
theorem Operation.count_clock {now : Cycles} {op : Operation ρ}
    (hend : now.count + op.elapsed < Cycles.last.count) :
    (op.clock now).count = now.count + op.elapsed := by
  cases op with
  | poll cycles =>
    have hend : now.count + cycles.count < Cycles.last.count := hend
    rw [Cycles.count_last] at hend
    show (now + cycles).count = now.count + cycles.count
    rw [Cycles.count_add]
    omega
  | _ => rfl

/-- What the chip and the serial ULA look up has an entry in its table, and the rates that they
come to are positive. -/
structure Charted (b : Board ρ) : Prop where
  /-- The setting of bits 2 to 4 of the control register. -/
  word : b.acia.chip.control.toNat / 4 % 8 < Acia.Control.wordTable.length
  /-- The low two bits select a divider. -/
  divider : (Tape.Tapefile.divider? b.acia.chip.control).isSome = true
  transmitField : b.ula.register.toNat % 8 < SerialUla.rates.length
  receiveField : b.ula.register.toNat / 8 % 8 < SerialUla.rates.length
  ulaRate : b.ula.receiveRate ≠ 0
  rate : b.acia.chip.receiveRate ≠ 0

/-- Every setting but that of a reset selects a divider. -/
theorem isSome_divider? {control : UInt8} (h : Acia.Control.isReset control = false) :
    (Tape.Tapefile.divider? control).isSome = true := by
  have hreset : control.toNat % 4 ≠ 3 := by simpa [Acia.Control.isReset] using h
  have hfour : control.toNat % 4 < 4 := Nat.mod_lt _ (by decide)
  obtain hzero | hone | htwo : control.toNat % 4 = 0 ∨ control.toNat % 4 = 1 ∨
      control.toNat % 4 = 2 := by omega
  · rw [Tape.Tapefile.divider?, hzero]
    rfl
  · rw [Tape.Tapefile.divider?, hone]
    rfl
  · rw [Tape.Tapefile.divider?, htwo]
    rfl

variable [Acia.SerialPeer ρ]

/-- Every state of a board is charted. -/
theorem Reachable.charted {b : Board ρ} (hb : b.Reachable) : b.Charted where
  word := Nat.mod_lt _ (by decide)
  divider := isSome_divider? hb.wired.control
  transmitField := Nat.mod_lt _ (by decide)
  receiveField := Nat.mod_lt _ (by decide)
  ulaRate := Acia.ulaRate_ne_zero b.ula
  rate := hb.wired.rate

/-- From every state a history runs to its end, and the clock goes on by the time that passes. -/
theorem Reachable.exists_run {b : Board ρ} (hb : b.Reachable) {ops : List (Operation ρ)}
    (hrate : ∀ op ∈ ops, op ≠ .setReceiveRate 0)
    (hend : b.acia.now.count + elapsed ops < Cycles.last.count) :
    ∃ replies b', b.run ops = .ok (replies, b') ∧ replies.length = ops.length ∧
      b'.acia.now.count = b.acia.now.count + elapsed ops := by
  induction ops generalizing b with
  | nil => exact ⟨[], b, rfl, rfl, rfl⟩
  | cons op ops ih =>
    rw [elapsed, ← Nat.add_assoc] at hend ⊢
    -- the first operation succeeds and moves the clock, which leaves enough time for the others
    obtain ⟨reply, b₁, hperform⟩ := hb.exists_perform op (hrate op List.mem_cons_self) (by
      rintro cycles rfl
      have hpoll : b.acia.now.count + cycles.count + elapsed ops < Cycles.last.count := hend
      omega)
    have hnow : b₁.acia.now.count = b.acia.now.count + op.elapsed := by
      rw [perform_now hb.sound hperform]
      exact Operation.count_clock (by omega)
    obtain ⟨replies, b', hrun, hlength, hafter⟩ := ih (hb.perform hperform)
      (fun op' hop' => hrate op' (List.mem_cons_of_mem _ hop')) (by rw [hnow]; exact hend)
    refine ⟨reply :: replies, b', run_cons_iff.mpr ⟨reply, replies, b₁, hperform, hrun, rfl⟩,
      congrArg (· + 1) hlength, ?_⟩
    rw [hafter, hnow]

/-- **A board that is set up in order never faults.**  Whatever has happened to it, whatever tapes
its host has put on the shelf and whatever answers on the line, a history that sets no receive rate
of zero and stays below the end of time runs to its end and answers every operation; so no timer is
armed without a delay or for another scheduler, none polls from inside a task, and no poll exceeds
its limit.  Nothing is ever looked up that a table does not hold, and no loop of bits is refused. -/
theorem never_faults (config : Acia.Config) (hdelay : config.transmitDelay ≠ 0)
    (hrate : config.receiveRate ≠ 0) :
    (∃ b₀ : Board ρ, Board.ofConfig config = .ok b₀ ∧
      ∀ b, Course (fun _ _ => True) b₀ b → b.Charted ∧
        ∀ ops : List (Operation ρ), (∀ op ∈ ops, op ≠ .setReceiveRate 0) →
          b.acia.now.count + elapsed ops < Cycles.last.count →
          ∃ replies b', b.run ops = .ok (replies, b') ∧ replies.length = ops.length ∧
            b'.acia.now.count = b.acia.now.count + elapsed ops ∧ b'.Charted) ∧
      (∀ (f : Tape.Uef.Framing) (byte : UInt8), ∃ s,
        BitLoop.take? #[f.mask byte] f.dataBits = .ok s ∧
          s.round f.dataBits = f.dataCells (f.mask byte)) ∧
      ∃ s, BitLoop.take? Tape.Uef.dummyFrame 10 = .ok s ∧
        s.round 10 = Tape.Uef.dummyCells.map not := by
  have hstart : ∃ b₀ : Board ρ, Board.ofConfig config = .ok b₀ := by
    rw [Board.ofConfig, Acia.ofConfig, if_neg hdelay, if_neg hrate]
    exact ⟨_, rfl⟩
  obtain ⟨b₀, hb₀⟩ := hstart
  refine ⟨⟨b₀, hb₀, fun b hcourse => ?_⟩, Tape.Uef.Framing.round_mask, Tape.Uef.round_dummyFrame⟩
  have hb : b.Reachable := hcourse.reachable (.start hb₀)
  refine ⟨hb.charted, fun ops hops hend => ?_⟩
  obtain ⟨replies, b', hrun, hlength, hnow⟩ := hb.exists_run hops hend
  exact ⟨replies, b', hrun, hlength, hnow, (hb.run hrun).charted⟩

/-- A torn chunk after a carrier, at a clock of zero hertz, on the slowest line, almost to the end
of time. -/
theorem never_faults_torn :
    (2000 : Cycles) ≠ 0 ∧ (1 : UInt32) ≠ 0 ∧
      ∃ (b : Board Unit) (replies : List Reply) (b' : Board Unit),
        b.run [.reinsert, .ulaWrite 0xF8, .write 0 0x16, .write 1 0x41,
          .poll ⟨0xFFFFFFFFFFFFFFFE, by decide⟩] = .ok (replies, b') ∧
        replies.length = 5 ∧ b'.acia.now.count = 0xFFFFFFFFFFFFFFFE ∧ b'.Charted := by
  have hdelay : (2000 : Cycles) ≠ 0 := by decide
  have hrate : (1 : UInt32) ≠ 0 := by decide
  refine ⟨hdelay, hrate, ?_⟩
  obtain ⟨⟨b₀, hb₀, hruns⟩, -⟩ := never_faults (ρ := Unit)
    { clock := ⟨0⟩, transmitDelay := 2000, receiveRate := 1 } hdelay hrate
  obtain ⟨-, -, hacia⟩ := ofConfig_eq hb₀
  let tape : Tape :=
    .uef (.ofImage (Tape.Uef.header 10 ++ [0x10, 0x01, 2, 0, 0, 0, 0, 0, 0x13]) ⟨0⟩)
  have hshelved : Course (fun _ _ => True) b₀ { b₀ with shelf := some tape } := .shelve .refl _
  obtain ⟨replies, b', hrun, hlength, hnow, hcharted⟩ := (hruns _ hshelved).2
    [.reinsert, .ulaWrite 0xF8, .write 0 0x16, .write 1 0x41,
      .poll ⟨0xFFFFFFFFFFFFFFFE, by decide⟩] (by
        intro op hop
        simp only [List.mem_cons, List.not_mem_nil, or_false] at hop
        rcases hop with rfl | rfl | rfl | rfl | rfl <;> simp) (by
        rw [hacia]
        decide)
  refine ⟨_, replies, b', hrun, hlength, hnow.trans ?_, hcharted⟩
  rw [hacia]
  rfl

end Cassette.Board
