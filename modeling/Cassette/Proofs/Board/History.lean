import Cassette.Proofs.Acia.Reception
import Cassette.Proofs.Board.Outcome

/-!
# The history of the receive registers

In every state of a board the receive registers can be told from the incidents that have led to
it, in the order in which they came: which bytes have arrived, where the carrier has been, when the
data register has been read and the chip been reset.  Nothing else that happens to the board has a
part in them.

## Main definitions

* `Incidents.Stands` — an incident has come, and none since that undoes it.
* `Board.incidents` and `Board.story` — the incidents of an operation and of a history.
* `Board.ReachedBy` — the states of a board with the incidents that have led to them.
* `Acia.Reflects` — the registers are what the incidents make them.

## Main results

* `latch_iff` — a flag that incidents set and clear.
* `ReachedBy.reception_eq` — the registers follow the incidents.
* `ReachedBy.reflects` — **the receive registers are told from the incidents.**
-/

namespace Cassette

namespace Acia

variable {ρ : Type}

/-! ### What incidents leave standing -/

namespace Incident

/-- A byte is delivered. -/
def Arrives (i : Incident) : Prop := ∃ b, i = .arrival b

/-- The byte that arrived is done with. -/
def Acknowledges (i : Incident) : Prop := i = .taken ∨ i = .reset

/-- The carrier is there from here on. -/
def Raises (i : Incident) : Prop := i = .carrier true ∨ i = .reset

/-- The carrier is gone from here on. -/
def Lowers (i : Incident) : Prop := i = .carrier false ∨ i = .rs423

/-- The byte that is delivered. -/
def byte? : Incident → Option UInt8
  | .arrival b => some b
  | _ => none

end Incident

/-- An incident has come for which `sets` held, given those before it, and none since for which
`clears` holds. -/
def Incidents.Stands (sets : List Incident → Incident → Prop) (clears : Incident → Prop)
    (l : List Incident) : Prop :=
  ∃ before i later, l = before ++ i :: later ∧ sets before i ∧ ∀ j ∈ later, ¬ clears j

/-- Of the incidents that move the carrier the last has raised it. -/
def Incidents.CarrierUp : List Incident → Prop :=
  Stands (fun _ i => i.Raises) fun j => j.Raises ∨ j.Lowers

open Incidents (Stands CarrierUp)

theorem Incidents.stands_cons {sets : List Incident → Incident → Prop} {clears : Incident → Prop}
    {i : Incident} {l : List Incident} :
    Stands sets clears (i :: l) ↔
      Stands (fun before => sets (i :: before)) clears l ∨ (sets [] i ∧ ∀ j ∈ l, ¬ clears j) := by
  constructor
  · rintro ⟨before, j, later, hl, hsets, hlater⟩
    cases before with
    | nil =>
      obtain ⟨rfl, rfl⟩ := List.cons.inj hl
      exact Or.inr ⟨hsets, hlater⟩
    | cons _ before =>
      obtain ⟨rfl, htail⟩ := List.cons.inj hl
      exact Or.inl ⟨before, j, later, htail, hsets, hlater⟩
  · rintro (⟨before, j, later, rfl, hsets, hlater⟩ | ⟨hsets, hlater⟩)
    · exact ⟨i :: before, j, later, rfl, hsets, hlater⟩
    · exact ⟨[], i, l, rfl, hsets, hlater⟩

/-- A flag that incidents set and clear holds if it has been set and not been cleared since, or if
it held at first and has never been cleared. -/
theorem latch_iff (flag : Reception → Bool) (sets : Reception → Incident → Prop)
    (clears : Incident → Prop)
    (h : ∀ r i, flag (r.after i) = true ↔ sets r i ∨ (flag r = true ∧ ¬ clears i))
    (r : Reception) (l : List Incident) :
    flag (l.foldl Reception.after r) = true ↔
      Stands (fun before i => sets (before.foldl Reception.after r) i) clears l ∨
        (flag r = true ∧ ∀ i ∈ l, ¬ clears i) := by
  induction l generalizing r with
  | nil =>
    constructor
    · intro hflag
      exact Or.inr ⟨hflag, nofun⟩
    · rintro (⟨before, i, later, hl, -⟩ | ⟨hflag, -⟩)
      · exact absurd hl.symm (by simp)
      · exact hflag
  | cons i l ih =>
    rw [List.foldl_cons, ih, Incidents.stands_cons, h]
    -- what the first incident leaves is set by it, or was there before and is not cleared by it
    constructor
    · rintro (hstands | ⟨hsets | ⟨hflag, hkept⟩, hlater⟩)
      · exact Or.inl (Or.inl hstands)
      · exact Or.inl (Or.inr ⟨hsets, hlater⟩)
      · exact Or.inr ⟨hflag, List.forall_mem_cons.mpr ⟨hkept, hlater⟩⟩
    · rintro ((hstands | ⟨hsets, hlater⟩) | ⟨hflag, hkept⟩)
      · exact Or.inl hstands
      · exact Or.inr ⟨Or.inl hsets, hlater⟩
      · obtain ⟨hkept, hlater⟩ := List.forall_mem_cons.mp hkept
        exact Or.inr ⟨Or.inr ⟨hflag, hkept⟩, hlater⟩

/-- A flag that does not hold at first holds if it has been set and not been cleared since. -/
theorem latch_iff_stands (flag : Reception → Bool) (sets : Reception → Incident → Prop)
    (clears : Incident → Prop)
    (h : ∀ r i, flag (r.after i) = true ↔ sets r i ∨ (flag r = true ∧ ¬ clears i))
    (hflag : flag {} = false) (l : List Incident) :
    flag (l.foldl Reception.after {}) = true ↔
      Stands (fun before i => sets (before.foldl Reception.after {}) i) clears l := by
  rw [latch_iff flag sets clears h, hflag]
  simp

/-! ### The registers -/

/-- What the registers are after some incidents. -/
def registers (l : List Incident) : Reception := l.foldl Reception.after {}

theorem full_iff (l : List Incident) :
    (registers l).full = true ↔ Stands (fun _ i => i.Arrives) Incident.Acknowledges l := by
  refine latch_iff_stands Reception.full (fun _ i => i.Arrives) Incident.Acknowledges ?_ rfl l
  intro r i
  cases i with
  | carrier level => cases level <;> simp [Reception.after, Incident.Arrives, Incident.Acknowledges]
  | _ => simp [Reception.after, Incident.Arrives, Incident.Acknowledges]

theorem carrier_iff (l : List Incident) : (registers l).carrier = true ↔ CarrierUp l := by
  refine latch_iff_stands Reception.carrier (fun _ i => i.Raises) (fun j => j.Raises ∨ j.Lowers) ?_
    rfl l
  intro r i
  cases i with
  | carrier level => cases level <;> simp [Reception.after, Incident.Raises, Incident.Lowers]
  | _ => simp [Reception.after, Incident.Raises, Incident.Lowers]

theorem interrupt_iff (l : List Incident) :
    (registers l).interrupt = true ↔
      Stands (fun before i => i.Arrives ∨ i = .carrier true ∧ ¬ CarrierUp before)
        Incident.Acknowledges l := by
  have hlatch := latch_iff_stands Reception.interrupt
    (fun r i => i.Arrives ∨ i = .carrier true ∧ ¬ r.carrier = true)
    Incident.Acknowledges (fun r i => by
      cases i with
      | carrier level =>
        cases level <;>
          simp [Reception.after, Incident.Arrives, Incident.Acknowledges, or_comm]
      | _ => simp [Reception.after, Incident.Arrives, Incident.Acknowledges]) rfl l
  -- the carrier that a rise finds is in turn told from the incidents before it
  simp only [← carrier_iff]
  exact hlatch

theorem data_eq (r : Reception) (l : List Incident) :
    (l.foldl Reception.after r).data = ((l.filterMap Incident.byte?).getLast?).getD r.data := by
  induction l generalizing r with
  | nil => rfl
  | cons i l ih =>
    rw [List.foldl_cons, ih]
    cases i with
    | arrival b =>
      show _ = (b :: l.filterMap Incident.byte?).getLast?.getD r.data
      rw [List.getLast?_cons]
      rfl
    | carrier level => cases level <;> rfl
    | taken | reset | rs423 => rfl

/-! ### What the registers show -/

/-- The receive registers are what the incidents make them. -/
structure Reflects (a : Acia ρ) (l : List Incident) : Prop where
  /-- The receive register is full while a byte has arrived and not been acknowledged. -/
  full : a.chip.status.receiveFull = true ↔ Stands (fun _ i => i.Arrives) Incident.Acknowledges l
  /-- The data register holds the last byte, and zero before the first. -/
  data : a.chip.data = ((l.filterMap Incident.byte?).getLast?).getD 0
  /-- The carrier is where the last incident that moved it has left it. -/
  carrier : a.chip.status.carrier = true ↔ CarrierUp l
  /-- An interrupt stands while a byte, or a carrier where there was none, has not been
  acknowledged. -/
  interrupt : a.chip.status.interrupt = true ↔
    Stands (fun before i => i.Arrives ∨ i = .carrier true ∧ ¬ CarrierUp before)
      Incident.Acknowledges l
  /-- It is requested if bit 7 of the control register allows it. -/
  active : a.chip.interruptActive = true ↔
    a.chip.status.interrupt = true ∧ a.chip.control.toNat.testBit 7 = true
  /-- Bit 7 of the status register shows the request. -/
  shown : ∀ address, isData address = false →
    (a.read address).1.toNat.testBit 7 = a.chip.interruptActive

/-- Registers that have followed some incidents reflect them. -/
theorem Reflects.of_reception {a : Acia ρ} {l : List Incident}
    (h : a.chip.reception = registers l) : a.Reflects l where
  full := by rw [← full_iff, ← h]; rfl
  data := (congrArg Reception.data h).trans (data_eq {} l)
  carrier := by rw [← carrier_iff, ← h]; rfl
  interrupt := by rw [← interrupt_iff, ← h]; rfl
  active := Bool.and_eq_true_iff
  shown _ haddress := (testBit_read a haddress).2

end Acia

/-! ### The incidents of a board -/

namespace Board

open Acia (Incident Reception)

variable {ρ : Type}

/-- The carrier of the cassette goes when its motor stops, and reaches the chip only while the
cassette is selected. -/
def motorIncidents (c : Acia.Chip ρ) (on : Bool) : List Incident :=
  if c.motorOn && !on && !c.rs423Selected then [.carrier false] else []

/-- RS423 takes over the receive side. -/
def selectIncidents (selected : Bool) : List Incident := if selected then [.rs423] else []

/-- The incidents of an operation that leads from `b` to `b'`. -/
def incidents (b b' : Board ρ) : Operation ρ → List Incident
  | .read address => if Acia.isData address then [.taken] else []
  | .write address value =>
    if Acia.isData address then [] else if Acia.Control.isReset value then [.reset] else []
  | .reset => [.reset]
  | .selectRs423 selected => selectIncidents selected
  | .setCarrier level => [.carrier level]
  | .receive byte => [.arrival byte]
  | .switchMotor on => motorIncidents b.acia.chip on
  | .ulaWrite value =>
    motorIncidents b.acia.chip (SerialUla.mk value).motorOn
      ++ selectIncidents (SerialUla.mk value).selectsRs423
  | .ulaRead =>
    motorIncidents b.acia.chip (SerialUla.mk SerialUla.busValue).motorOn
      ++ selectIncidents (SerialUla.mk SerialUla.busValue).selectsRs423
  | .poll _ =>
    Acia.heard b.acia.chip.rs423Selected (b'.acia.chip.trace.drop b.acia.chip.trace.length)
  | .setReceiveRate _ | .insert _ _ | .eject | .reinsert | .rewind | .ulaReset | .attachPeer _
  | .attachTone _ | .attachNoise _ => []

variable [Acia.SerialPeer ρ]

/-- The incidents of a history, up to an operation that breaks the contract. -/
def story (b : Board ρ) : List (Operation ρ) → List Incident
  | [] => []
  | op :: ops =>
    match b.perform op with
    | .ok (_, b') => incidents b b' op ++ b'.story ops
    | .error _ => []

/-- The states of a board with the incidents that have led to them, in order. -/
inductive ReachedBy : List Incident → Board ρ → Prop where
  | start {config : Acia.Config} {b : Board ρ} (h : Board.ofConfig config = .ok b) : ReachedBy [] b
  | perform {l : List Incident} {b b' : Board ρ} (hb : ReachedBy l b) {op : Operation ρ}
      {reply : Reply} (h : b.perform op = .ok (reply, b')) : ReachedBy (l ++ incidents b b' op) b'
  | shelve {l : List Incident} {b : Board ρ} (hb : ReachedBy l b) (shelf : Option Tape) :
      ReachedBy l { b with shelf }

section

variable {b b' : Board ρ} {l : List Incident}

theorem ReachedBy.reachable (h : ReachedBy l b) : b.Reachable := by
  induction h with
  | start h => exact .start h
  | perform _ h ih => exact ih.perform h
  | shelve _ shelf ih => exact ih.shelve shelf

/-- Incidents have led to every state of a board. -/
theorem Reachable.exists_reachedBy (h : b.Reachable) : ∃ l, ReachedBy l b := by
  induction h with
  | start h => exact ⟨[], .start h⟩
  | perform _ h ih =>
    obtain ⟨l, hl⟩ := ih
    exact ⟨_, hl.perform h⟩
  | shelve _ shelf ih =>
    obtain ⟨l, hl⟩ := ih
    exact ⟨l, hl.shelve shelf⟩

theorem ReachedBy.run (hb : ReachedBy l b) {ops : List (Operation ρ)} {replies : List Reply}
    (h : b.run ops = .ok (replies, b')) : ReachedBy (l ++ b.story ops) b' := by
  induction ops generalizing b l replies with
  | nil =>
    obtain ⟨-, rfl⟩ := Prod.mk.inj (Except.ok.inj h)
    rw [story, List.append_nil]
    exact hb
  | cons op ops ih =>
    obtain ⟨reply, rest, b₁, hop, hops, -⟩ := run_cons_iff.mp h
    have hstory : b.story (op :: ops) = incidents b b₁ op ++ b₁.story ops := by
      rw [story, hop]
    rw [hstory, ← List.append_assoc]
    exact ih (hb.perform hop) hops

/-- The registers after an operation other than the passing of time. -/
theorem reception_outcome (b b' : Board ρ) {op : Operation ρ} (hop : ∀ cycles, op ≠ .poll cycles) :
    (b.outcome op).chip.reception
      = (incidents b b' op).foldl Reception.after b.acia.chip.reception := by
  have hmotor (on : Bool) : (b.acia.switched on).chip.reception
      = (motorIncidents b.acia.chip on).foldl Reception.after b.acia.chip.reception := by
    rw [Acia.reception_switched, motorIncidents]
    split <;> rfl
  have hselect (a : Acia ρ) (selected : Bool) : (a.selected selected).chip.reception
      = (selectIncidents selected).foldl Reception.after a.chip.reception := by
    cases selected <;> rfl
  -- a rate is set first, which is nothing to the motor or to the registers
  have hula (u : SerialUla) : (b.acia.routed u).chip.reception
      = (motorIncidents b.acia.chip u.motorOn ++ selectIncidents u.selectsRs423).foldl
          Reception.after b.acia.chip.reception := by
    rw [List.foldl_append, ← hmotor]
    unfold Acia.routed
    rw [hselect, Acia.reception_switched, Acia.reception_switched, Acia.reception_rated]
    have hstanding := Acia.standing_rated b.acia u.receiveRate
    have hmotorOn : (b.acia.rated u.receiveRate).chip.motorOn = b.acia.chip.motorOn :=
      congrArg (·.motorOn) hstanding
    have hselected : (b.acia.rated u.receiveRate).chip.rs423Selected = b.acia.chip.rs423Selected :=
      congrArg (·.rs423Selected) hstanding
    rw [hmotorOn, hselected]
  cases op with
  | poll cycles => exact absurd rfl (hop cycles)
  | read address =>
    refine (Acia.reception_read b.acia address).trans ?_
    show _ = (if Acia.isData address then [Incident.taken] else []).foldl Reception.after _
    split <;> rfl
  | write address value =>
    refine (Acia.reception_written b.acia address value).trans ?_
    show _ = (if Acia.isData address then [] else if Acia.Control.isReset value
      then [Incident.reset] else []).foldl Reception.after _
    split
    · rfl
    · split <;> rfl
  | setCarrier level => exact Acia.reception_setCarrier b.acia.chip level
  | selectRs423 selected => exact hselect b.acia selected
  | switchMotor on => exact hmotor on
  | setReceiveRate rate => exact Acia.reception_rated b.acia rate
  | insert data clock => exact Acia.reception_opened b.acia _
  | reinsert =>
    exact outcome_reinsert (P := fun a => a.chip.reception = b.acia.chip.reception) rfl fun _ => rfl
  | rewind => exact Acia.reception_rewind b.acia
  | ulaWrite value => exact hula ⟨value⟩
  | ulaRead => exact hula ⟨SerialUla.busValue⟩
  | reset | receive | eject | ulaReset | attachPeer | attachTone | attachNoise => rfl

/-- The registers follow the incidents of an operation. -/
theorem reception_perform (hb : b.Reachable) {op : Operation ρ} {reply : Reply}
    (h : b.perform op = .ok (reply, b')) :
    b'.acia.chip.reception
      = (incidents b b' op).foldl Reception.after b.acia.chip.reception := by
  rcases perform_cases h with ⟨cycles, e, rfl, hpoll, -⟩ | hop
  · obtain ⟨timers, chip, hadv, -, ha⟩ := Acia.Sound.poll_ok hpoll
    have hheard := Acia.Hears.advance hb.sound.timed (fun _ => True)
      (fun _ _ _ => trivial) (fun _ _ => trivial) hadv
    obtain ⟨moments, htrace, -, hreception⟩ := hheard.grown
    -- what has been added to the trace is what the poll has heard
    have hmoments : b'.acia.chip.trace.drop b.acia.chip.trace.length = moments := by
      rw [ha]
      change chip.trace.drop _ = moments
      rw [htrace, List.drop_left]
    rw [incidents, hmoments, ha]
    exact hreception
  · rw [perform_outcome hb.sound hb.transmitDelay_ne_zero h hop]
    exact reception_outcome b b' hop

/-- The registers follow the incidents. -/
theorem ReachedBy.reception_eq (h : ReachedBy l b) : b.acia.chip.reception = Acia.registers l := by
  induction h with
  | start h =>
    obtain ⟨-, -, hacia⟩ := ofConfig_eq h
    rw [hacia]
    rfl
  | perform hb h ih =>
    rw [reception_perform hb.reachable h, ih, Acia.registers, Acia.registers, List.foldl_append]
  | shelve _ _ ih => exact ih

/-- **The receive registers are told from the incidents.**  In every state of a board they are what
the incidents that have led to it make them, in the order in which these came, and an operation
without an incident leaves them as they are. -/
theorem ReachedBy.reflects (h : ReachedBy l b) :
    b.acia.Reflects l ∧
      ∀ {op : Operation ρ} {reply : Reply} {b' : Board ρ}, b.perform op = .ok (reply, b') →
        incidents b b' op = [] → b'.acia.chip.reception = b.acia.chip.reception := by
  refine ⟨.of_reception h.reception_eq, fun {op reply b'} hperform hnone => ?_⟩
  rw [reception_perform h.reachable hperform, hnone]
  rfl

end

/-- A board with a tape of two bytes on the shelf. -/
def shelved : Board Unit :=
  { plain with shelf := some (.tapefile (.ofImage [0x41, 0x42] .standard)) }

/-- Its first byte is taken; a carrier comes from outside and goes with the motor; the chip is
reset; and a byte from outside waits to be read when RS423 is selected. -/
theorem reflects_shelved :
    ∃ b : Board Unit,
      ReachedBy [.arrival 0x41, .taken, .carrier true, .carrier false, .reset, .arrival 0x55, .rs423]
        b ∧
      b.acia.Reflects
        [.arrival 0x41, .taken, .carrier true, .carrier false, .reset, .arrival 0x55, .rs423] ∧
      b.acia.chip.status.receiveFull = true ∧ b.acia.chip.status.carrier = false := by
  let ops : List (Operation Unit) := [.reinsert, .switchMotor true, .poll 1, .read 0, .read 1,
    .setCarrier true, .switchMotor false, .write 0 0x03, .receive 0x55, .ulaWrite 0x40]
  have hstart : ReachedBy [] shelved :=
    .shelve (.start (show Board.ofConfig {} = .ok plain from rfl)) _
  obtain ⟨replies, hrun⟩ := run_after shelved ops (by decide +kernel)
  have hreached := hstart.run hrun
  have hstory : shelved.story ops
      = [.arrival 0x41, .taken, .carrier true, .carrier false, .reset, .arrival 0x55, .rs423] := by
    decide +kernel
  rw [hstory] at hreached
  exact ⟨_, hreached, hreached.reflects.1, by decide +kernel, by decide +kernel⟩

end Board

end Cassette
