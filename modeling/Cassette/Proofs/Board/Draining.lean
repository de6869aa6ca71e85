import Cassette.Acia.Drain
import Cassette.Proofs.Acia.Reception
import Cassette.Proofs.Board.Regular

/-!
# A host that polls finely enough

A host without interrupts lets time pass in equal steps and looks at the status register after
each.  A byte that the tape delivers on any cycle of a step waits for the look at the end of it, the
last cycle included, and the next step begins on the cycle after.  So if deliveries are never closer
together than a step, there is at most one in each, and the host takes them all.

## Main definitions

* `OnCassette` — the cassette plays to the chip.
* `deliveries` and `Spaced` — what the tape delivers and when, and that it is far enough apart.

## Main results

* `Spaced.length_le_one` — a step holds one delivery at most.
* `look_eq` — a look is a read of the status register, and of the data register if bit 0 says so.
* `Reachable.round` — one step of time.
* `Reachable.drained` — the rounds, one after another.
* `Reachable.drains` — **a host that polls finely enough takes every byte once and in order.**
-/

namespace Cassette

namespace Acia

variable {ρ : Type}

/-! ### The cassette plays -/

/-- The cassette plays to the chip, or its tape has just been lost. -/
structure OnCassette (c : Chip ρ) : Prop where
  cassette : c.rs423Selected = false
  motor : c.motorOn = true
  supplied : c.Supplied

theorem OnCassette.act [SerialPeer ρ] {c : Chip ρ} (h : OnCassette c) (timer : Timer)
    (now : Cycles) : OnCassette (timer.act now c).2 := by
  have hstanding := standing_act timer now c
  refine ⟨(congrArg (·.rs423Selected) hstanding).trans h.cassette,
    (congrArg (·.motorOn) hstanding).trans h.motor, ?_⟩
  cases timer with
  | transmit => exact h.supplied
  | tape => exact supplied_pollTape now h.supplied
  | rs423 =>
    rw [Timer.act_rs423]
    split
    · exact (sameDeck_pollPeer now c).supplied h.supplied
    · exact h.supplied

theorem OnCassette.advance [SerialPeer ρ] {s s' : Scheduler Timer} {c c' : Chip ρ}
    (h : OnCassette c) (htimed : Timed s c) {limit : Nat} {target : Cycles}
    (hadv : Scheduler.advance Timer.routine limit target s c = .ok (s', c')) : OnCassette c' := by
  obtain ⟨_, h', -⟩ := htimed.induct (fun _ c => OnCassette c) (fun _ h _ _ _ => h.act _ _) h hadv
  exact h'

/-! ### Deliveries -/

/-- The byte that the tape delivers, with its cycle. -/
def Moment.delivery? (m : Moment) : Option (Cycles × UInt8) :=
  match m.event with
  | .signal (.byte b) => some (m.cycle, b)
  | _ => none

/-- What the tape delivers while some moments pass. -/
def deliveries (moments : List Moment) : List (Cycles × UInt8) :=
  moments.filterMap Moment.delivery?

@[simp] theorem deliveries_append (first second : List Moment) :
    deliveries (first ++ second) = deliveries first ++ deliveries second :=
  List.filterMap_append

theorem Moment.delivery?_cycle {m : Moment} {d : Cycles × UInt8} (h : m.delivery? = some d) :
    d.1 = m.cycle := by
  unfold Moment.delivery? at h
  split at h
  · rw [← Option.some.inj h]
  · simp at h

/-- Consecutive deliveries are a step apart, or more. -/
def Spaced (step : Cycles) : List (Cycles × UInt8) → Prop
  | first :: second :: rest =>
    first.1.count + step.count ≤ second.1.count ∧ Spaced step (second :: rest)
  | _ => True

namespace Spaced

variable {step : Cycles}

theorem tail {d : Cycles × UInt8} {l : List (Cycles × UInt8)} (h : Spaced step (d :: l)) :
    Spaced step l := by
  cases l with
  | nil => trivial
  | cons second rest => exact h.2

theorem left {l l' : List (Cycles × UInt8)} (h : Spaced step (l ++ l')) : Spaced step l := by
  induction l with
  | nil => trivial
  | cons first l ih =>
    cases l with
    | nil => trivial
    | cons second l => exact ⟨h.1, ih h.tail⟩

theorem right {l l' : List (Cycles × UInt8)} (h : Spaced step (l ++ l')) : Spaced step l' := by
  induction l with
  | nil => exact h
  | cons first l ih => exact ih h.tail

/-- The cycles of one step hold one delivery at most: the last of them is less than a step after
the first. -/
theorem length_le_one {l : List (Cycles × UInt8)} (h : Spaced step l) (now : Nat)
    (hwithin : ∀ d ∈ l, now < d.1.count ∧ d.1.count ≤ now + step.count) : l.length ≤ 1 := by
  match l with
  | [] => exact Nat.zero_le 1
  | [_] => exact Nat.le_refl 1
  | first :: second :: rest =>
    have hafter := (hwithin first List.mem_cons_self).1
    have hwithin := (hwithin second (List.mem_cons_of_mem _ List.mem_cons_self)).2
    have hapart := h.1
    omega

end Spaced

/-- What a chip hears of some moments, if the line has no part in them, fills its receive register
with the last delivery. -/
theorem reception_heard {moments : List Moment} (hasked : ∀ m ∈ moments, ¬ m.event.IsAsked)
    (r : Reception) :
    ((heard false moments).foldl Reception.after r).full
        = (r.full || !(deliveries moments).isEmpty) ∧
      ((heard false moments).foldl Reception.after r).data
        = ((deliveries moments).getLast?.map Prod.snd).getD r.data := by
  induction moments generalizing r with
  | nil => exact ⟨(Bool.or_false r.full).symm, rfl⟩
  | cons m moments ih =>
    obtain ⟨hm, hasked⟩ := List.forall_mem_cons.mp hasked
    have ih := ih hasked
    obtain ⟨cycle, event⟩ := m
    cases event with
    | signal s =>
      cases s with
      | byte b =>
        -- the register is full from here on, and holds the byte unless another follows
        obtain ⟨hfull, hdata⟩ := ih (r.after (.arrival b))
        refine ⟨hfull.trans ?_, hdata.trans ?_⟩
        · exact (Bool.true_or _).trans (Bool.or_true r.full).symm
        · change _ = (((cycle, b) :: deliveries moments).getLast?.map Prod.snd).getD r.data
          rw [List.getLast?_cons]
          cases (deliveries moments).getLast? <;> rfl
      | carrier level => cases level <;> exact ih _
      | tone | note => exact ih r
    | asked => exact absurd trivial hm
    | _ => exact ih r

/-! ### Looks -/

/-- The chip after a look, which takes the byte if there is one. -/
def Chip.relieved (c : Chip ρ) : Chip ρ :=
  if c.status.receiveFull then { c with status := c.status.acknowledge } else c

@[simp] theorem trace_relieved (c : Chip ρ) : c.relieved.trace = c.trace := by
  unfold Chip.relieved
  split <;> rfl

@[simp] theorem receiveFull_relieved (c : Chip ρ) : c.relieved.status.receiveFull = false := by
  unfold Chip.relieved
  split
  · rfl
  · next h => exact eq_false_of_ne_true h

theorem OnCassette.relieved {c : Chip ρ} (h : OnCassette c) : OnCassette c.relieved := by
  unfold Chip.relieved
  split
  · exact ⟨h.cassette, h.motor, h.supplied⟩
  · exact h

/-- A look reads the status register, which changes nothing, and takes the byte in the data
register if bit 0 says that there is one. -/
theorem look_eq (a : Acia ρ) (seen : Drained) :
    (a.read 0).2 = a ∧
      if (a.read 0).1.toNat.testBit 0 then
        (a.look seen).1.bytes = seen.bytes.push (a.read 1).1 ∧ (a.look seen).2 = (a.read 1).2
      else (a.look seen).1.bytes = seen.bytes ∧ (a.look seen).2 = a := by
  refine ⟨rfl, ?_⟩
  have hbit : (a.read 0).1.toNat.testBit 0 = a.chip.shownStatus.receiveFull :=
    (testBit_read a rfl).1
  rw [hbit, look]
  dsimp only
  cases a.chip.shownStatus.receiveFull <;> cases a.chip.shownStatus.carrier <;> exact ⟨rfl, rfl⟩

/-- What the host has after a look. -/
theorem bytes_look (a : Acia ρ) (seen : Drained) :
    (a.look seen).1.bytes
      = if a.chip.status.receiveFull then seen.bytes.push a.chip.data else seen.bytes := by
  have hlook := (look_eq a seen).2
  rw [(testBit_read a rfl).1] at hlook
  split at hlook
  · next hfull =>
    rw [if_pos hfull]
    exact hlook.1
  · next hclear =>
    rw [if_neg hclear]
    exact hlook.1

/-- A step that begins with a clear receive register and holds one delivery at most leaves the look
after it exactly what has been delivered. -/
theorem bytes_of_round {c : Chip ρ} {moments : List Moment} {r : Reception}
    (hclear : r.full = false)
    (hreception : c.reception = (heard false moments).foldl Reception.after r)
    (hasked : ∀ m ∈ moments, ¬ m.event.IsAsked) (hone : (deliveries moments).length ≤ 1)
    (bytes : Array UInt8) :
    (if c.status.receiveFull then bytes.push c.data else bytes).toList
      = bytes.toList ++ (deliveries moments).map Prod.snd := by
  obtain ⟨hfull, hdata⟩ := reception_heard hasked r
  rw [← hreception] at hfull hdata
  have hfull : c.status.receiveFull = (r.full || !(deliveries moments).isEmpty) := hfull
  have hdata : c.data = ((deliveries moments).getLast?.map Prod.snd).getD r.data := hdata
  rw [hclear, Bool.false_or] at hfull
  rw [hfull, hdata]
  match hmoments : deliveries moments with
  | [] => exact (List.append_nil _).symm
  | [d] => exact Array.toList_push
  | _ :: _ :: _ =>
    rw [hmoments, List.length_cons, List.length_cons] at hone
    omega

section

variable [SerialPeer ρ] {step : Cycles} {a a₁ : Acia ρ} {seen : Drained}

/-- A round in which the tape does not fail. -/
theorem drainRounds_succ (hpoll : a.poll step = .ok (none, a₁)) (rounds : Nat) :
    drainRounds step (rounds + 1) seen a
      = drainRounds step rounds (a₁.look { seen with elapsed := seen.elapsed + step }).1
          (a₁.look { seen with elapsed := seen.elapsed + step }).2 := by
  rw [drainRounds, hpoll]
  rfl

/-- A round in which the tape fails is the last one. -/
theorem drainRounds_failed {e : Tape.Error} (hpoll : a.poll step = .ok (some e, a₁))
    (rounds : Nat) : drainRounds step (rounds + 1) seen a
      = .ok ({ seen with elapsed := seen.elapsed + step, error := some e }, a₁) := by
  rw [drainRounds, hpoll]
  rfl

end

end Acia

/-! ### Rounds -/

namespace Board

open Acia (OnCassette Spaced deliveries Drained)

variable {ρ : Type} [Acia.SerialPeer ρ]

/-- A tape that plays has its next turn ahead, so that time has not come to its end. -/
theorem Reachable.count_add_lt {b : Board ρ} (hb : b.Reachable) {step : Cycles} {limit : Nat}
    {timers : Scheduler Acia.Timer} {chip : Acia.Chip ρ}
    (hadv : Scheduler.advance Acia.Timer.routine limit (b.acia.now + step) b.acia.timers b.acia.chip
      = .ok (timers, chip))
    (hmotor : chip.motorOn = true) (hdeck : chip.deck.isSome = true) :
    b.acia.now.count + step.count < Cycles.last.count := by
  have hwired := Acia.Wired.advance hb.wired hb.sound.timed hadv
  obtain ⟨due, hdue⟩ : ∃ due, Acia.Timer.tape.due? timers = some due := by
    refine Option.isSome_iff_exists.mp (hwired.tape.trans ?_)
    rw [hdeck, Bool.and_true]
    exact hmotor
  obtain ⟨e, he, -⟩ := Acia.Timer.exists_entry hdue
  have hbelow := (hb.sound.timed.of_advance hadv).2.2 e he
  have hlast := e.due.lt_size
  rw [Cycles.count_add] at hbelow
  rw [Cycles.count_last]
  omega

/-- One step of time, from a state in which the cassette plays.  If the tape does not fail, it
stays below the end of time, and what it delivers comes after the cycle on which the step begins
and up to the one on which it ends. -/
theorem Reachable.round {b : Board ρ} (hb : b.Reachable) (hon : OnCassette b.acia.chip)
    {step : Cycles} {a : Acia ρ} (hpoll : b.acia.poll step = .ok (none, a)) :
    OnCassette a.chip ∧ ∃ moments, a.chip.trace = b.acia.chip.trace ++ moments ∧
      a.chip.reception
        = (Acia.heard false moments).foldl Acia.Reception.after b.acia.chip.reception ∧
      ∀ m ∈ moments, ¬ m.event.IsAsked ∧ b.acia.now.count < m.cycle.count ∧
        m.cycle.count ≤ b.acia.now.count + step.count := by
  obtain ⟨timers, chip, hadv, herror, rfl⟩ := Acia.Sound.poll_ok hpoll
  have hon' := hon.advance hb.sound.timed hadv
  -- the tape has not been lost, so it is still in the deck
  have hdeck : chip.deck.isSome = true := by
    rw [Option.isSome_iff_ne_none]
    exact fun hnone => hon'.supplied hnone herror.symm
  have hbelow := hb.count_add_lt hadv hon'.motor hdeck
  have hcount : (b.acia.now + step).count = b.acia.now.count + step.count := by
    rw [Cycles.count_last] at hbelow
    rw [Cycles.count_add]
    omega
  have hend : b.acia.now.count < Cycles.last.count := by omega
  have hheard := Acia.Hears.advance hb.sound.timed (b.acia.now < ·)
    (fun cycle delay hcycle => Nat.lt_of_lt_of_le hcycle (Scheduler.count_le_add cycle delay))
    (hb.later hend) hadv
  obtain ⟨moments, htrace, hkind, hreception⟩ := hheard.grown
  rw [hon.cassette] at hreception hkind
  refine ⟨⟨hon'.cassette, hon'.motor, Acia.supplied_of_isSome hdeck⟩, moments, htrace, hreception,
    fun m hm => ?_⟩
  obtain ⟨⟨hafter, hwithin⟩, hasked⟩ := hkind m hm
  have hwithin : m.cycle.count ≤ (b.acia.now + step).count := hwithin
  rw [hcount] at hwithin
  exact ⟨fun h => Bool.false_ne_true (hasked h), hafter, hwithin⟩

/-- After a step and a look the board is in one of its states. -/
theorem Reachable.looked {b : Board ρ} (hb : b.Reachable) {step : Cycles} {a : Acia ρ}
    {e : Option Tape.Error} (hpoll : b.acia.poll step = .ok (e, a)) (seen : Drained) :
    ∃ b' : Board ρ, b'.Reachable ∧ b'.acia = (a.look seen).2 ∧
      b'.acia = a.onChip Acia.Chip.relieved := by
  have hpolled : b.perform (.poll step) = .ok (e.elim .none .failed, b.withAcia a) := by
    rw [Board.perform, hpoll]
    rfl
  have hb₁ := hb.perform hpolled
  have hlook := (Acia.look_eq a seen).2
  rw [(Acia.testBit_read a rfl).1] at hlook
  split at hlook
  · next hfull =>
    have hread : (b.withAcia a).perform (.read 1)
        = .ok (.byte (a.read 1).1, b.withAcia (a.read 1).2) := rfl
    refine ⟨_, hb₁.perform hread, hlook.2.symm, ?_⟩
    rw [Acia.onChip, Acia.Chip.relieved, if_pos hfull]
    rfl
  · next hclear =>
    refine ⟨b.withAcia a, hb₁, hlook.2.symm, ?_⟩
    rw [Acia.onChip, Acia.Chip.relieved, if_neg hclear]
    rfl

/-- The rounds of a host, one after another.  After each the receive register is clear; and if the
deliveries are spaced, the host has taken them all. -/
theorem Reachable.drained {step : Cycles} {rounds : Nat} {b : Board ρ} (hb : b.Reachable)
    (hon : OnCassette b.acia.chip) (hclear : b.acia.chip.status.receiveFull = false)
    {seen drained : Drained} {a : Acia ρ}
    (hdrain : Acia.drainRounds step rounds seen b.acia = .ok (drained, a))
    (herror : drained.error = none) :
    ∃ moments, a.chip.trace = b.acia.chip.trace ++ moments ∧
      (∀ k ≤ rounds, ∃ seen' a', Acia.drainRounds step k seen b.acia = .ok (seen', a') ∧
        a'.chip.status.receiveFull = false) ∧
      (Spaced step (deliveries moments) →
        drained.bytes.toList = seen.bytes.toList ++ (deliveries moments).map Prod.snd) := by
  induction rounds generalizing b seen with
  | zero =>
    obtain ⟨rfl, rfl⟩ := Prod.mk.inj (Except.ok.inj hdrain)
    refine ⟨[], (List.append_nil _).symm, fun k hk => ?_, fun _ => (List.append_nil _).symm⟩
    rw [Nat.le_zero.mp hk]
    exact ⟨seen, b.acia, rfl, hclear⟩
  | succ rounds ih =>
    obtain ⟨⟨e, a₁⟩, hpoll, -⟩ := bind_ok hdrain
    cases e with
    | some e =>
      rw [Acia.drainRounds_failed hpoll] at hdrain
      obtain ⟨rfl, -⟩ := Prod.mk.inj (Except.ok.inj hdrain)
      simp at herror
    | none =>
      obtain ⟨hon₁, first, htrace, hreception, hwithin⟩ := hb.round hon hpoll
      obtain ⟨b₁, hb₁, hlooked, hacia⟩ :=
        hb.looked hpoll { seen with elapsed := seen.elapsed + step }
      have hchip : b₁.acia.chip = a₁.chip.relieved := congrArg Acia.chip hacia
      rw [Acia.drainRounds_succ hpoll, ← hlooked] at hdrain
      obtain ⟨rest, htrace', hcleared, htaken⟩ := ih hb₁ (hchip ▸ hon₁.relieved)
        (hchip ▸ Acia.receiveFull_relieved a₁.chip) hdrain
      refine ⟨first ++ rest, ?_, fun k hk => ?_, fun hspaced => ?_⟩
      · rw [htrace', hchip, Acia.trace_relieved, htrace, List.append_assoc]
      · cases k with
        | zero => exact ⟨seen, b.acia, rfl, hclear⟩
        | succ k =>
          rw [Acia.drainRounds_succ hpoll, ← hlooked]
          exact hcleared k (Nat.le_of_succ_le_succ hk)
      · rw [Acia.deliveries_append] at hspaced ⊢
        -- the deliveries of this step are on its own cycles, and so there is one at most
        have hone : (deliveries first).length ≤ 1 := by
          refine hspaced.left.length_le_one b.acia.now.count fun d hd => ?_
          obtain ⟨m, hm, hdelivery⟩ := List.mem_filterMap.mp hd
          rw [Acia.Moment.delivery?_cycle hdelivery]
          exact (hwithin m hm).2
        have hround := Acia.bytes_of_round (show b.acia.chip.reception.full = false from hclear)
          hreception (fun m hm => (hwithin m hm).1) hone seen.bytes
        rw [htaken hspaced.right, Acia.bytes_look, hround, List.map_append, List.append_assoc]

/-- Below the end of time the rounds of a host come to their end. -/
theorem Reachable.exists_drained {step : Cycles} {rounds : Nat} {b : Board ρ} (hb : b.Reachable)
    (hend : b.acia.now.count + rounds * step.count < Cycles.last.count) (seen : Drained) :
    ∃ drained a, Acia.drainRounds step rounds seen b.acia = .ok (drained, a) := by
  induction rounds generalizing b seen with
  | zero => exact ⟨seen, b.acia, rfl⟩
  | succ rounds ih =>
    rw [Nat.succ_mul] at hend
    have hbelow : b.acia.now.count + step.count < Cycles.last.count := by omega
    obtain ⟨timers, chip, hadv⟩ := hb.sound.advance step hbelow
    have hpoll := Acia.Sound.poll_eq hadv
    cases herror : chip.deckError with
    | some e =>
      rw [herror] at hpoll
      exact ⟨_, _, Acia.drainRounds_failed hpoll rounds⟩
    | none =>
      rw [herror] at hpoll
      obtain ⟨b₁, hb₁, hlooked, hacia⟩ :=
        hb.looked hpoll { seen with elapsed := seen.elapsed + step }
      have hnow : b₁.acia.now.count = b.acia.now.count + step.count := by
        rw [hacia]
        change timers.epoch.count = _
        rw [(hb.sound.timed.of_advance hadv).2.1, Cycles.count_add]
        rw [Cycles.count_last] at hbelow
        omega
      rw [Acia.drainRounds_succ hpoll, ← hlooked]
      refine ih hb₁ ?_ _
      rw [hnow]
      omega

/-- **A host that polls finely enough takes every byte once and in order.**  While the cassette
plays and the receive register is clear, the rounds come to their end below the end of time; and if
the tape does not fail, the register is clear after every round, and the host has taken exactly what
the tape has delivered, as long as its deliveries are never closer together than a step. -/
theorem Reachable.drains {b : Board ρ} (hb : b.Reachable)
    (hcassette : b.acia.chip.rs423Selected = false) (hmotor : b.acia.chip.motorOn = true)
    (hdeck : b.acia.chip.deck.isSome = true) (hclear : b.acia.chip.status.receiveFull = false)
    (step : Cycles) (rounds : Nat) :
    (b.acia.now.count + rounds * step.count < Cycles.last.count →
      ∃ drained a, Acia.drainRounds step rounds {} b.acia = .ok (drained, a)) ∧
      ∀ {drained : Drained} {a : Acia ρ},
        Acia.drainRounds step rounds {} b.acia = .ok (drained, a) → drained.error = none →
        (∀ k ≤ rounds, ∃ seen a', Acia.drainRounds step k {} b.acia = .ok (seen, a') ∧
          a'.chip.status.receiveFull = false) ∧
        (Spaced step (deliveries (a.chip.trace.drop b.acia.chip.trace.length)) →
          drained.bytes.toList
            = (deliveries (a.chip.trace.drop b.acia.chip.trace.length)).map Prod.snd) := by
  refine ⟨fun hend => hb.exists_drained hend {}, fun {drained a} hdrain herror => ?_⟩
  have hon : OnCassette b.acia.chip := ⟨hcassette, hmotor, Acia.supplied_of_isSome hdeck⟩
  obtain ⟨moments, htrace, hcleared, htaken⟩ := hb.drained hon hclear hdrain herror
  rw [htrace, List.drop_left]
  exact ⟨hcleared, htaken⟩

/-- Three bytes that are exactly a step apart. -/
theorem drains_threeBytes :
    ∃ (b : Board Unit) (drained : Drained) (a : Acia Unit), b.Reachable ∧
      b.acia.chip.rs423Selected = false ∧ b.acia.chip.motorOn = true ∧
      b.acia.chip.deck.isSome = true ∧ b.acia.chip.status.receiveFull = false ∧
      Acia.drainRounds 1041 3 {} b.acia = .ok (drained, a) ∧ drained.error = none ∧
      Spaced 1041 (deliveries (a.chip.trace.drop b.acia.chip.trace.length)) ∧
      drained.bytes.toList = [0x41, 0x42, 0x43] := by
  let b := ({ plain with shelf := some (.tapefile (.ofImage [0x41, 0x42, 0x43] .standard)) } :
    Board Unit).after [.reinsert, .switchMotor true]
  have hb : b.Reachable := (reachable_plain.shelve _).after _
  have hcassette : b.acia.chip.rs423Selected = false := by decide +kernel
  have hmotor : b.acia.chip.motorOn = true := by decide +kernel
  have hdeck : b.acia.chip.deck.isSome = true := by decide +kernel
  have hclear : b.acia.chip.status.receiveFull = false := by decide +kernel
  obtain ⟨hends, htakes⟩ := hb.drains hcassette hmotor hdeck hclear 1041 3
  obtain ⟨drained, a, hdrain⟩ := hends (by decide +kernel)
  have herror : (Acia.drainRounds 1041 3 {} b.acia).toOption.map (·.1.error) = some none := by
    decide +kernel
  have hdelivered : (Acia.drainRounds 1041 3 {} b.acia).toOption.map
      (fun r => deliveries (r.2.chip.trace.drop b.acia.chip.trace.length))
        = some [(1, 0x41), (1042, 0x42), (2083, 0x43)] := by
    decide +kernel
  rw [hdrain] at herror hdelivered
  have herror : drained.error = none := Option.some.inj herror
  have hdelivered : deliveries (a.chip.trace.drop b.acia.chip.trace.length)
      = [(1, 0x41), (1042, 0x42), (2083, 0x43)] := Option.some.inj hdelivered
  have hspaced : Spaced 1041 (deliveries (a.chip.trace.drop b.acia.chip.trace.length)) := by
    rw [hdelivered]
    exact ⟨by decide, by decide, trivial⟩
  have hbytes := (htakes hdrain herror).2 hspaced
  rw [hdelivered] at hbytes
  exact ⟨b, drained, a, hb, hcassette, hmotor, hdeck, hclear, hdrain, herror, hspaced, hbytes⟩

end Board

end Cassette
