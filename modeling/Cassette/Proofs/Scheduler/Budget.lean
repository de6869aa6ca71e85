import Cassette.Proofs.Scheduler.Firing

/-!
# How many firings an advance takes

A firing arms nothing for the cycle that it happens on, so the next firing is on a later cycle,
or on the same one with fewer left for it.  Hence an advance to a target below the end of time
comes to its end within some limit, and if no firing faults, within one that the number of
tasks and the way to the target give.

## Main definitions

* `distance`, `crowd` — how far the next firing is from the target, and how many entries share
  its cycle.
* `Ahead` — no entry is overdue.

## Main results

* `fire_progress` — every firing makes one of them smaller.
* `advance_settles` — some limit is high enough.
* `advance_within` — a limit that is high enough, when no firing faults.
-/

namespace Cassette.Scheduler

variable {β C : Type} {behave : Behaviour β C}

/-! ### Progress -/

/-- The cycle of the next firing, as a distance from the target. -/
def distance (target : Cycles) (s : Scheduler β) : Nat :=
  s.agenda.head?.elim 0 fun e => target.count + 1 - e.due.count

/-- How many entries are due on the cycle of the next firing. -/
def crowd (s : Scheduler β) : Nat := s.agenda.head?.elim 0 fun e => s.dueCount e.due

/-- After a firing the next one is on a later cycle, or on the same one with fewer left. -/
theorem fire_progress {s s' : Scheduler β} {e : Entry} {rest : List Entry} {target : Cycles}
    (h : s.Orderly) (hs : s.agenda = e :: rest) (hdue : ¬ target < e.due)
    (hx : (s.takeOut e).Extends s') :
    s'.distance target < s.distance target ∨
      s'.distance target = s.distance target ∧ s'.crowd < s.crowd := by
  have hdue : e.due.count ≤ target.count := Nat.le_of_not_lt hdue
  have hcount : s.dueCount e.due = (s.takeOut e).dueCount e.due + 1 := by
    change s.agenda.countP _ = s.agenda.tail.countP _ + 1
    rw [hs]
    exact List.countP_cons_of_pos (by simp)
  have hfewer : s'.dueCount e.due ≤ (s.takeOut e).dueCount e.due := hx.fewer
  have hsorted := h.sorted
  rw [hs, List.pairwise_cons] at hsorted
  cases hs' : s'.agenda with
  | nil =>
    left
    simp only [distance, hs, hs', List.head?_nil, List.head?_cons, Option.elim]
    omega
  | cons f rest' =>
    have hle : e.due.count ≤ f.due.count := by
      rcases hx.later f (by rw [hs']; exact List.mem_cons_self) with hf | hf
      · have hf : f ∈ s.agenda.tail := hf
        rw [hs] at hf
        exact Entry.due_le_of_before (hsorted.1 f hf)
      · exact Nat.le_of_lt hf
    by_cases heq : f.due = e.due
    · right
      simp only [distance, crowd, hs, hs', List.head?_cons, Option.elim, heq]
      exact ⟨trivial, by omega⟩
    · left
      have hne : f.due.count ≠ e.due.count := fun hc => heq (Cycles.ext hc)
      simp only [distance, hs, hs', List.head?_cons, Option.elim]
      omega

/-- Before the end of time some limit is high enough. -/
theorem advance_settles (hb : NeverPoll behave) {target : Cycles}
    (hlast : target.count < Cycles.last.count) (s : Scheduler β) (context : C) (h : s.Orderly)
    (hhome : Home [] s) : ∃ enough, Settled (advance behave enough target s context) := by
  by_cases hidle : ∀ e ∈ s.agenda.head?, target < e.due
  · -- one turn, in which nothing fires
    refine ⟨1, fun stop hstop => ?_⟩
    rw [advance_of_idle hidle] at hstop
    simp at hstop
  · obtain ⟨e, rest, hs, hdue⟩ := exists_due hidle
    have hmem : e ∈ s.agenda := by rw [hs]; exact List.mem_cons_self
    have hsettled := fire_settled hb context (hhome e.task (by simp) (h.owned e hmem))
    cases hf : fire behave e s context with
    | error stop =>
      refine ⟨1, fun stop' hstop => ?_⟩
      rw [advance_cons hb hs hdue, hf] at hstop
      obtain rfl := Except.error.inj hstop
      exact hsettled stop hf
    | ok out =>
      have hdue' : e.due.count ≤ target.count := Nat.le_of_not_lt hdue
      have hkeeps := fire_keeps hb ⟨h, hhome⟩ hf
      have hprogress := fire_progress h hs hdue (fire_extends hb (by omega) hf)
      obtain ⟨enough, henough⟩ := advance_settles hb hlast out.1 out.2 hkeeps.1 hkeeps.2
      refine ⟨enough + 1, ?_⟩
      rw [advance_cons hb hs hdue, hf]
      exact henough
termination_by (s.distance target, s.crowd)
decreasing_by
  rcases hprogress with hlt | ⟨heq, hlt⟩
  · exact Prod.Lex.left _ _ hlt
  · rw [heq]
    exact Prod.Lex.right _ hlt

/-! ### A limit for tasks that never fault -/

/-- There are no more entries than tasks. -/
theorem Orderly.length_le {s : Scheduler β} (h : s.Orderly) : s.agenda.length ≤ s.bodies.size := by
  have hnodup : (s.agenda.map (·.task.index)).Nodup := by
    rw [List.nodup_iff_pairwise_ne, List.pairwise_map]
    exact h.single.imp fun hne heq => hne (Handle.eq_of_index heq)
  have hsub : s.agenda.map (·.task.index) ⊆ List.range s.bodies.size := by
    intro index hindex
    obtain ⟨e, he, rfl⟩ := List.mem_map.mp hindex
    exact List.mem_range.mpr (h.owned e he)
  have hle := hnodup.length_le_of_subset hsub
  rwa [List.length_map, List.length_range] at hle

theorem crowd_le (s : Scheduler β) : s.crowd ≤ s.agenda.length := by
  unfold crowd
  cases s.agenda.head? with
  | none => exact Nat.zero_le _
  | some e => exact List.countP_le_length

/-- While something is due, there is a cycle to go and a firing to come. -/
theorem pos_of_due {s : Scheduler β} {e : Entry} {rest : List Entry} {target : Cycles}
    (hs : s.agenda = e :: rest) (hdue : ¬ target < e.due) :
    0 < s.distance target ∧ 0 < s.crowd := by
  have hdue : e.due.count ≤ target.count := Nat.le_of_not_lt hdue
  simp only [distance, crowd, dueCount, hs, List.head?_cons, Option.elim]
  refine ⟨by omega, ?_⟩
  exact List.countP_pos_iff.mpr ⟨e, List.mem_cons_self, by simp⟩

/-- If no firing faults from a state with `P`, and `P` allows at most `n` entries, the limit has
to cover `n` firings for each cycle that the next firing is from the target. -/
theorem advance_within (hb : NeverPoll behave) (P : Scheduler β → C → Prop) {n : Nat}
    {target : Cycles} (hlast : target.count < Cycles.last.count)
    (hP : ∀ {s context}, P s context → s.Orderly ∧ s.agenda.length ≤ n)
    (hfire : ∀ {s : Scheduler β} {context : C} {e : Entry} {rest : List Entry}, P s context →
      s.agenda = e :: rest →
      ∃ s' context', fire behave e s context = .ok (s', context') ∧ P s' context')
    {limit : Nat} {s : Scheduler β} {context : C} (h : P s context)
    (hlimit : n * s.distance target + s.crowd ≤ limit + n) :
    ∃ s' context', advance behave (limit + 1) target s context = .ok (s', context') := by
  induction limit generalizing s context with
  | zero =>
    by_cases hidle : ∀ e ∈ s.agenda.head?, target < e.due
    · exact ⟨_, _, advance_of_idle hidle 0 context⟩
    · -- with a firing to come the limit would have to be positive
      obtain ⟨e, rest, hs, hdue⟩ := exists_due hidle
      obtain ⟨hdistance, hcrowd⟩ := pos_of_due hs hdue
      have hle : n * 1 ≤ n * s.distance target := Nat.mul_le_mul_left n hdistance
      omega
  | succ limit ih =>
    by_cases hidle : ∀ e ∈ s.agenda.head?, target < e.due
    · exact ⟨_, _, advance_of_idle hidle (limit + 1) context⟩
    · obtain ⟨e, rest, hs, hdue⟩ := exists_due hidle
      obtain ⟨hdistance, hcrowd⟩ := pos_of_due hs hdue
      obtain ⟨s', context', hf, h'⟩ := hfire h hs
      have hdue' : e.due.count ≤ target.count := Nat.le_of_not_lt hdue
      rw [advance_cons hb hs hdue, hf]
      refine ih h' ?_
      rcases fire_progress (hP h).1 hs hdue (fire_extends hb (by omega) hf) with hlt | ⟨heq, hlt⟩
      · -- a later cycle: its crowd is at most `n`, which the earlier cycle had covered
        have hcrowd' := Nat.le_trans s'.crowd_le (hP h').2
        have hle : n * (s'.distance target + 1) ≤ n * s.distance target :=
          Nat.mul_le_mul_left n hlt
        rw [Nat.mul_add] at hle
        omega
      · -- the same cycle: one firing fewer is left for it
        rw [heq]
        omega

/-! ### Nothing is overdue -/

/-- No entry is overdue. -/
def Ahead (s : Scheduler β) : Prop := ∀ e ∈ s.agenda, s.epoch.count ≤ e.due.count

theorem count_le_add (epoch delay : Cycles) : epoch.count ≤ (epoch + delay).count := by
  have hlt := epoch.lt_size
  rw [Cycles.count_add]
  omega

theorem Ahead.apply {c : Command} {s s' : Scheduler β} (h : s.Ahead) (ha : c.apply s = .ok s') :
    s'.Ahead := by
  rcases apply_cases ha with rfl | ⟨task, rfl⟩ | ⟨task, delay, -, -, rfl⟩
  · exact h
  · exact fun e he => h e (mem_agenda_dismiss.mp he).1
  · intro e he
    rcases mem_enter.mp he with rfl | he
    · exact count_le_add s.epoch delay
    · exact h e (mem_agenda_dismiss.mp he).1

/-- Before the first firing the distance is at most the way to the target and one cycle. -/
theorem Ahead.distance_le {s : Scheduler β} (h : s.Ahead) (target : Cycles) :
    s.distance target ≤ target.count + 1 - s.epoch.count := by
  unfold distance
  cases hs : s.agenda with
  | nil => exact Nat.zero_le _
  | cons e rest =>
    have hle := h e (by rw [hs]; exact List.mem_cons_self)
    simp only [List.head?_cons, Option.elim]
    omega

end Cassette.Scheduler
