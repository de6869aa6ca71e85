import Cassette.Proofs.Acia.Pending

/-!
# Visits to the device on the line

What passes between the chip and a device at the far end of the RS423 line is decided by a small
part of the chip: the selection, the control register and the rate, the device itself, and when the
timer of the line is due.  While time passes the device is visited once in the time of a character,
and what each visit comes to can be told from how many there were before it.

## Main definitions

* `Visit` — one turn of the line, and what passes in it.
* `Contact` — the part of the chip that decides what passes on the line.
* `Contact.visits`, `Contact.follow` — the visits up to some cycle, and the contact after them.
* `Rota` — visits that are each as long after the one before as the time of a character then.
* `Asks` — what a device is asked on each visit, and what becomes of it.

## Main results

* `Contact.visits_follow` — the clock may stop on the way.
* `Contact.rota_visits` — **the visits come once in the time of a character**.
* `Contact.asks_visits` — and the device is asked on each of them.
-/

namespace Cassette.Acia

variable {ρ : Type}

/-! ### What passes on the line -/

/-- Something passes between the chip and the device on the line. -/
def Event.isOnLine : Event → Bool
  | .asked .. | .transmitted _ => true
  | _ => false

/-- A device on the line is asked for a byte. -/
def Event.isAsked : Event → Bool
  | .asked .. => true
  | _ => false

/-- What has passed on the line, in order. -/
def Chip.passed (c : Chip ρ) : List Moment := c.trace.filter (·.event.isOnLine)

/-- How often a device has been asked for a byte, in order. -/
def Chip.asks (c : Chip ρ) : List Moment := c.passed.filter (·.event.isAsked)

theorem passed_record (now : Cycles) (c : Chip ρ) (e : Event) :
    (c.record now e).passed = c.passed ++ if e.isOnLine then [⟨now, e⟩] else [] :=
  filter_trace_record Event.isOnLine now c e

/-- One turn of the line. -/
structure Visit where
  cycle : Cycles
  /-- The time of a character with the registers in force. -/
  time : Cycles
  /-- What passes, if a device is attached. -/
  event? : Option Event

/-- What a visit leaves on the trace. -/
def Visit.moment? (v : Visit) : Option Moment := v.event?.map (Moment.mk v.cycle)

/-! ### The contact -/

/-- What decides what passes on the line, and what has passed. -/
structure Contact (ρ : Type) where
  clock : Clock
  control : UInt8
  rs423Selected : Bool
  receiveRate : UInt32
  peer : Option ρ
  passed : List Moment
  /-- When the line has its next turn, if it is selected. -/
  due? : Option Cycles

namespace Contact

/-- The contact of some timers and a chip. -/
def of (s : Scheduler Timer) (c : Chip ρ) : Contact ρ :=
  ⟨c.clock, c.control, c.rs423Selected, c.receiveRate, c.peer, c.passed, Timer.rs423.due? s⟩

/-- The time of a character on the line. -/
def byteTime (k : Contact ρ) : Cycles :=
  Chip.byteTime { clock := k.clock, control := k.control, receiveRate := k.receiveRate : Chip ρ }

theorem byteTime_pos (k : Contact ρ) : 0 < k.byteTime.count :=
  Nat.pos_of_ne_zero fun hzero => Timer.byteTime_ne_zero _ (Cycles.ext hzero)

/-! ### How many visits -/

/-- The number of visits up to `target`: one on the due cycle, and then one in the time of a
character. -/
def visitCount (k : Contact ρ) (target : Cycles) : Nat :=
  k.due?.elim 0 fun due => (target.count + k.byteTime.count - due.count) / k.byteTime.count

section

variable {k : Contact ρ} {due target : Cycles}

/-- After `n` visits up to `target`, with the next one later, there are no others. -/
theorem visitCount_eq (hdue : k.due? = some due) {n : Nat}
    (hlast : n = 0 ∨ due.count + (n - 1) * k.byteTime.count ≤ target.count)
    (hnext : target.count < due.count + n * k.byteTime.count) : k.visitCount target = n := by
  have htime := k.byteTime_pos
  unfold visitCount
  rw [hdue, Option.elim_some]
  cases n with
  | zero =>
    rw [Nat.zero_mul] at hnext
    exact Nat.div_eq_of_lt (by omega)
  | succ n =>
    obtain hlast : due.count + n * k.byteTime.count ≤ target.count := by simpa using hlast
    rw [Nat.succ_mul] at hnext
    apply Nat.div_eq_of_lt_le
    · rw [Nat.succ_mul]
      omega
    · rw [Nat.succ_mul, Nat.succ_mul]
      omega

/-- The last of the visits is no later than `target`, and the next one is later. -/
theorem visitCount_spec (hdue : k.due? = some due) (target : Cycles) :
    (k.visitCount target = 0 ∨
        due.count + (k.visitCount target - 1) * k.byteTime.count ≤ target.count) ∧
      target.count < due.count + k.visitCount target * k.byteTime.count := by
  have htime := k.byteTime_pos
  obtain ⟨n, hn⟩ : ∃ n, k.visitCount target = n := ⟨_, rfl⟩
  have hdiv : (target.count + k.byteTime.count - due.count) / k.byteTime.count = n := by
    unfold visitCount at hn
    rwa [hdue, Option.elim_some] at hn
  have hle := Nat.div_mul_le_self (target.count + k.byteTime.count - due.count) k.byteTime.count
  have hlt := Nat.lt_div_mul_add htime (a := target.count + k.byteTime.count - due.count)
  rw [hdiv] at hle hlt
  rw [hn]
  refine ⟨?_, by omega⟩
  cases n with
  | zero => exact Or.inl rfl
  | succ n =>
    rw [Nat.succ_mul] at hle
    exact Or.inr (by rw [Nat.add_sub_cancel]; omega)

theorem visitCount_of_none (hdue : k.due? = none) (target : Cycles) : k.visitCount target = 0 := by
  unfold visitCount
  rw [hdue]
  rfl

end

/-! ### Visits -/

variable [SerialPeer ρ]

/-- What a device is asked, and what it answers. -/
def question (k : Contact ρ) (peer : ρ) : Event :=
  .asked (Control.requestToSend k.control)
    (SerialPeer.offer peer (Control.requestToSend k.control)).1

/-- The device after it has been asked. -/
def asked (k : Contact ρ) (peer : ρ) : ρ :=
  (SerialPeer.offer peer (Control.requestToSend k.control)).2

/-- The contact after a visit on cycle `now`. -/
def turn (k : Contact ρ) (now : Cycles) : Contact ρ :=
  { k with
    peer := k.peer.map k.asked
    passed := k.passed ++ (k.peer.map fun peer => ⟨now, k.question peer⟩).toList
    due? := some (now + k.byteTime) }

/-- The device after so many visits. -/
def peerAfter (k : Contact ρ) : Nat → Option ρ
  | 0 => k.peer
  | n + 1 => (k.peerAfter n).map k.asked

/-- The visit after `n` others, the first of them on cycle `due`. -/
def visit (k : Contact ρ) (due : Cycles) (n : Nat) : Visit where
  cycle := .ofNat (due.count + n * k.byteTime.count)
  time := k.byteTime
  event? := (k.peerAfter n).map k.question

/-- The next `n` visits. -/
def nextVisits (k : Contact ρ) (n : Nat) : List Visit :=
  k.due?.elim [] fun due => (List.range n).map (k.visit due)

/-- The contact after the next `n` visits. -/
def visited (k : Contact ρ) (n : Nat) : Contact ρ :=
  { k with
    peer := k.peerAfter n
    passed := k.passed ++ (k.nextVisits n).filterMap Visit.moment?
    due? := k.due?.map fun due => .ofNat (due.count + n * k.byteTime.count) }

/-- The visits up to `target`. -/
def visits (k : Contact ρ) (target : Cycles) : List Visit := k.nextVisits (k.visitCount target)

/-- The contact after time has passed up to `target`. -/
def follow (k : Contact ρ) (target : Cycles) : Contact ρ := k.visited (k.visitCount target)

section

variable (k : Contact ρ)

theorem visited_zero : k.visited 0 = k := by
  have hdue : (k.due?.map fun due => Cycles.ofNat (due.count + 0 * k.byteTime.count)) = k.due? := by
    cases k.due? with
    | none => rfl
    | some due =>
      refine congrArg some (Cycles.ext ?_)
      have hlt := due.lt_size
      rw [Cycles.count_ofNat]
      omega
  have hpassed : k.passed ++ (k.nextVisits 0).filterMap Visit.moment? = k.passed := by
    unfold nextVisits
    cases k.due? <;> simp
  unfold visited
  rw [hdue, hpassed]
  rfl

theorem nextVisits_succ {due : Cycles} (hdue : k.due? = some due) (n : Nat) :
    k.nextVisits (n + 1) = k.nextVisits n ++ [k.visit due n] := by
  unfold nextVisits
  rw [hdue, Option.elim_some, Option.elim_some, List.range_succ, List.map_append]
  rfl

/-- A delay that is added to a cycle past the end of time leads to the end of time. -/
theorem ofNat_add (n m : Nat) : Cycles.ofNat ((Cycles.ofNat n).count + m) = .ofNat (n + m) := by
  apply Cycles.ext
  simp only [Cycles.count_ofNat]
  omega

/-- One more visit. -/
theorem turn_visited {due : Cycles} (hdue : k.due? = some due) (n : Nat) :
    (k.visited n).turn (.ofNat (due.count + n * k.byteTime.count)) = k.visited (n + 1) := by
  have hpassed : (k.visited n).passed
      ++ ((k.peerAfter n).map fun peer => Moment.mk
          (.ofNat (due.count + n * k.byteTime.count)) (k.question peer)).toList
      = k.passed ++ (k.nextVisits (n + 1)).filterMap Visit.moment? := by
    unfold visited
    rw [k.nextVisits_succ hdue, List.filterMap_append, ← List.append_assoc]
    cases hpeer : k.peerAfter n <;> simp [visit, Visit.moment?, hpeer]
  have htime : Cycles.ofNat (due.count + n * k.byteTime.count) + k.byteTime
      = .ofNat (due.count + (n + 1) * k.byteTime.count) := by
    rw [Nat.succ_mul, ← Nat.add_assoc]
    exact ofNat_add _ _
  have hmap : (k.due?.map fun due => Cycles.ofNat (due.count + (n + 1) * k.byteTime.count))
      = some (.ofNat (due.count + (n + 1) * k.byteTime.count)) := by
    rw [hdue]
    rfl
  unfold visited
  rw [hmap, ← htime, ← hpassed]
  rfl

theorem peerAfter_visited (n m : Nat) : (k.visited n).peerAfter m = k.peerAfter (n + m) := by
  induction m with
  | zero => rfl
  | succ m ih => exact congrArg (Option.map k.asked) ih

theorem nextVisits_visited (n m : Nat) :
    k.nextVisits (n + m) = k.nextVisits n ++ (k.visited n).nextVisits m := by
  have hdue : (k.visited n).due?
      = k.due?.map fun due => .ofNat (due.count + n * k.byteTime.count) := rfl
  unfold nextVisits
  rw [hdue]
  cases k.due? with
  | none => rfl
  | some due =>
    have hvisit (j : Nat) : k.visit due (n + j)
        = (k.visited n).visit (.ofNat (due.count + n * k.byteTime.count)) j := by
      have hcycle : Cycles.ofNat (due.count + (n + j) * k.byteTime.count)
          = .ofNat ((Cycles.ofNat (due.count + n * k.byteTime.count)).count
              + j * k.byteTime.count) := by
        rw [ofNat_add, Nat.add_mul, Nat.add_assoc]
      have hevent : (k.peerAfter (n + j)).map k.question
          = ((k.visited n).peerAfter j).map (k.visited n).question := by
        rw [peerAfter_visited]
        rfl
      unfold visit
      rw [hcycle, hevent]
      rfl
    simp only [Option.map_some, Option.elim_some]
    rw [List.range_add, List.map_append, List.map_map]
    exact congrArg _ (List.map_congr_left fun j _ => hvisit j)

end

section

variable {k : Contact ρ} {first second : Cycles}

/-- The visits up to one cycle, and from there to another. -/
theorem visitCount_follow (hle : first.count ≤ second.count)
    (hlast : second.count < Cycles.last.count) :
    k.visitCount second = k.visitCount first + (k.follow first).visitCount second := by
  cases hdue : k.due? with
  | none =>
    have hnone : (k.follow first).due? = none := by
      unfold follow visited
      rw [hdue]
      rfl
    rw [visitCount_of_none hdue, visitCount_of_none hdue, visitCount_of_none hnone]
  | some due =>
    obtain ⟨-, hlater⟩ := visitCount_spec hdue first
    have hnext : (k.follow first).due?
        = some (.ofNat (due.count + k.visitCount first * k.byteTime.count)) := by
      unfold follow visited
      rw [hdue]
      rfl
    obtain ⟨hreached, hbeyond⟩ := visitCount_spec hnext second
    have htime : (k.follow first).byteTime = k.byteTime := rfl
    rw [htime, Cycles.count_ofNat] at hreached hbeyond
    rw [Cycles.count_last] at hlast
    obtain ⟨n, hn⟩ : ∃ n, k.visitCount first = n := ⟨_, rfl⟩
    obtain ⟨m, hm⟩ : ∃ m, (k.follow first).visitCount second = m := ⟨_, rfl⟩
    rw [hn] at hlater hreached hbeyond ⊢
    rw [hm] at hreached hbeyond ⊢
    have hmul := Nat.add_mul n m k.byteTime.count
    refine visitCount_eq hdue ?_ (by omega)
    cases m with
    | zero =>
      -- there is none after the first cycle, so the last one is the last up to that
      obtain ⟨hfirst, -⟩ := visitCount_spec hdue first
      rw [hn] at hfirst
      rw [Nat.add_zero]
      exact hfirst.imp id fun h => Nat.le_trans h hle
    | succ m =>
      obtain hreached : min (due.count + n * k.byteTime.count) 0xFFFFFFFFFFFFFFFF
          + m * k.byteTime.count ≤ second.count := by simpa using hreached
      have hmul := Nat.add_mul n m k.byteTime.count
      have hpred : n + (m + 1) - 1 = n + m := by omega
      rw [hpred]
      exact Or.inr (by omega)

/-- The clock may stop on the way. -/
theorem visits_follow (hle : first.count ≤ second.count)
    (hlast : second.count < Cycles.last.count) :
    k.visits second = k.visits first ++ (k.follow first).visits second := by
  have hcount := visitCount_follow (k := k) hle hlast
  unfold visits
  rw [hcount, nextVisits_visited]
  rfl

end

/-! ### The rota -/

end Contact

/-- Each visit is as long after the one before as the time of a character was then, the first is on
`due`, and after the last one the next is on `next`. -/
def Rota : Nat → List Visit → Nat → Prop
  | due, [], next => due = next
  | due, v :: visits, next => v.cycle.count = due ∧ Rota (v.cycle.count + v.time.count) visits next

theorem Rota.append {first second third : Nat} {visits more : List Visit}
    (h : Rota first visits second) (h' : Rota second more third) :
    Rota first (visits ++ more) third := by
  induction visits generalizing first with
  | nil =>
    obtain rfl : first = second := h
    exact h'
  | cons v visits ih => exact ⟨h.1, ih h.2⟩

/-- Each of the visits takes the given time and is one on which the device is asked. -/
def Asks {ρ : Type} [SerialPeer ρ] (requestToSend : Bool) (time : Cycles) :
    Option ρ → List Visit → Option ρ → Prop
  | peer, [], last => last = peer
  | peer, v :: visits, last =>
    v.time = time ∧
    v.event? = peer.map (fun peer => .asked requestToSend (SerialPeer.offer peer requestToSend).1) ∧
    Asks requestToSend time (peer.map fun peer => (SerialPeer.offer peer requestToSend).2) visits last

theorem Asks.append [SerialPeer ρ] {requestToSend : Bool} {time : Cycles}
    {first second third : Option ρ} {visits more : List Visit}
    (h : Asks requestToSend time first visits second)
    (h' : Asks requestToSend time second more third) :
    Asks requestToSend time first (visits ++ more) third := by
  induction visits generalizing first with
  | nil =>
    obtain rfl : second = first := h
    exact h'
  | cons v visits ih => exact ⟨h.1, h.2.1, ih h.2.2⟩

namespace Contact

variable [SerialPeer ρ] {k : Contact ρ}

theorem rota_nextVisits {due : Cycles} (hdue : k.due? = some due) {n : Nat}
    (hlast : n = 0 ∨ due.count + (n - 1) * k.byteTime.count < Cycles.last.count) :
    Rota due.count (k.nextVisits n) (due.count + n * k.byteTime.count) := by
  rw [Cycles.count_last] at hlast
  induction n with
  | zero =>
    unfold nextVisits
    rw [hdue, Nat.zero_mul]
    rfl
  | succ n ih =>
    obtain hlast : due.count + n * k.byteTime.count < 0xFFFFFFFFFFFFFFFF := by simpa using hlast
    have hbefore : (n - 1) * k.byteTime.count ≤ n * k.byteTime.count :=
      Nat.mul_le_mul_right _ (Nat.sub_le n 1)
    have hcycle : (k.visit due n).cycle.count = due.count + n * k.byteTime.count :=
      Nat.min_eq_left (by omega)
    rw [k.nextVisits_succ hdue]
    refine (ih (Or.inr (by omega))).append ⟨hcycle, ?_⟩
    show (k.visit due n).cycle.count + k.byteTime.count = _
    rw [hcycle, Nat.succ_mul, Nat.add_assoc]

/-- The visits up to a cycle come once in the time of a character, and the next one is later. -/
theorem rota_visits {due : Nat} (hdue : k.due? = some (.ofNat due)) {target : Cycles}
    (hlast : target.count < Cycles.last.count) :
    ∃ next, Rota due (k.visits target) next ∧
      (k.follow target).due? = some (.ofNat next) ∧ target.count < next := by
  obtain ⟨hreached, hlater⟩ := visitCount_spec hdue target
  have hnext : (k.follow target).due?
      = some (.ofNat (due + k.visitCount target * k.byteTime.count)) := by
    unfold follow visited
    rw [hdue, ← ofNat_add]
    rfl
  rw [Cycles.count_ofNat] at hreached hlater
  refine ⟨due + k.visitCount target * k.byteTime.count, ?_, hnext, by omega⟩
  by_cases hend : due ≤ 0xFFFFFFFFFFFFFFFF
  · have hcount : (Cycles.ofNat due).count = due := Nat.min_eq_left hend
    have hrota := rota_nextVisits hdue (n := k.visitCount target) (by
      rw [hcount]
      omega)
    rwa [hcount] at hrota
  · -- the first of them is due at the end of time, which is never reached
    rw [Cycles.count_last] at hlast
    obtain hnone : k.visitCount target = 0 := by omega
    unfold visits nextVisits
    rw [hnone, hdue, Nat.zero_mul]
    rfl

/-- On each of the visits the device is asked. -/
theorem asks_visits (k : Contact ρ) (target : Cycles) :
    Asks (Control.requestToSend k.control) k.byteTime k.peer (k.visits target)
      (k.follow target).peer := by
  cases hdue : k.due? with
  | none =>
    unfold visits follow
    rw [visitCount_of_none hdue, visited_zero]
    unfold nextVisits
    rw [hdue]
    rfl
  | some due =>
    suffices h : ∀ n, Asks (Control.requestToSend k.control) k.byteTime k.peer (k.nextVisits n)
        (k.peerAfter n) from h _
    intro n
    induction n with
    | zero =>
      unfold nextVisits
      rw [hdue]
      rfl
    | succ n ih =>
      rw [k.nextVisits_succ hdue]
      exact ih.append ⟨rfl, rfl, rfl⟩

/-- Nothing else passes on them. -/
theorem isAsked_moment? {target : Cycles} {v : Visit} (hv : v ∈ k.visits target) :
    ∀ m ∈ v.moment?, m.event.isAsked = true := by
  intro m hm
  unfold visits nextVisits at hv
  cases hdue : k.due? with
  | none => simp [hdue] at hv
  | some due =>
    rw [hdue] at hv
    obtain ⟨n, -, rfl⟩ := List.mem_map.mp hv
    obtain ⟨e, he, rfl⟩ := Option.map_eq_some_iff.mp hm
    obtain ⟨peer, -, rfl⟩ := Option.map_eq_some_iff.mp he
    rfl

end Contact

end Cassette.Acia
