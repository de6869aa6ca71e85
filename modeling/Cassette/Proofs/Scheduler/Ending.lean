import Cassette.Proofs.Scheduler.StepSize

/-!
# Advancing comes to an end

A running task may arm itself, arm others, and register new tasks and arm them, so the number of
entries is no measure of what is left to do.  But nothing can be armed for the current cycle: after
a firing the entries for its cycle are fewer, or the next firing is on a later cycle.  That holds as
long as the clock has not come to the end of time, where a delay leads nowhere.

## Main definitions

* `Watched.Arrives` — the clock comes to its target, with nothing left that is due.
* `Watched.Breaks` — the last task to fire breaks the contract.

## Main results

* `watch_forall` — what holds of all entries and of every later cycle holds of all sightings.
* `pairwise_watch` — no task fires twice on one cycle.
* `poll_ends` — **every poll to a target below the end of time comes to its end.**
-/

namespace Cassette.Scheduler

variable {β C : Type} {behave : Behaviour β C}

/-! ### How an advance ends -/

/-- The clock comes to `target`, and everything that is still armed is for a later cycle. -/
def Watched.Arrives (target : Cycles) (w : Watched β C) : Prop :=
  ∃ s context, w.outcome = .ok (s, context) ∧ s.epoch = target ∧
    ∀ e ∈ s.agenda, target.count < e.due.count

/-- The last task that fired stops the advance with a request that breaks the contract. -/
def Watched.Breaks (behave : Behaviour β C) (w : Watched β C) : Prop :=
  ∃ s e context stop, w.seen.getLast? = some ⟨e.task, s.takeOut e, context⟩ ∧
    fire behave e s context = .error stop ∧ stop.1.IsBreach ∧ w.outcome = .error stop

theorem Watched.Arrives.after {target : Cycles} {w : Watched β C} (h : w.Arrives target)
    (x : Sighting β C) : (w.after x).Arrives target := h

theorem Watched.Breaks.after {w : Watched β C} (h : w.Breaks behave) (x : Sighting β C) :
    (w.after x).Breaks behave := by
  obtain ⟨s, e, context, stop, hlast, hfire, hbreach, houtcome⟩ := h
  refine ⟨s, e, context, stop, ?_, hfire, hbreach, houtcome⟩
  change (x :: w.seen).getLast? = _
  rw [List.getLast?_cons, hlast]
  rfl

/-- An advance that meets no limit arrives at its target, unless a task breaks the contract. -/
theorem arrives_or_breaks (hb : NeverPoll behave) {limit : Nat} {target : Cycles}
    {s : Scheduler β} {context : C} (h : s.Orderly ∧ Home [] s)
    (hsettled : Settled (watch behave limit target s context).outcome) :
    (watch behave limit target s context).Arrives target ∨
      (watch behave limit target s context).Breaks behave := by
  induction limit generalizing s context with
  | zero => exact (hsettled _ rfl).elim
  | succ limit ih =>
    by_cases hidle : ∀ e ∈ s.agenda.head?, target < e.due
    · left
      rw [watch_of_idle hidle]
      exact ⟨_, context, rfl, rfl, h.1.later hidle⟩
    · obtain ⟨e, rest, hs, hdue⟩ := exists_due hidle
      rw [watch_cons hs hdue] at hsettled ⊢
      cases hf : fire behave e s context with
      | error stop =>
        rw [hf] at hsettled
        exact Or.inr ⟨s, e, context, stop, rfl, hf, hsettled stop rfl, rfl⟩
      | ok out =>
        rw [hf] at hsettled
        rcases ih (fire_keeps hb h hf) hsettled with harrives | hbreaks
        · exact Or.inl (harrives.after _)
        · exact Or.inr (hbreaks.after _)

/-! ### Once a cycle -/

/-- What holds of every entry, and of all tasks on every later cycle, holds of all sightings. -/
theorem watch_forall (hb : NeverPoll behave) {P : Cycles → Handle → Prop}
    (hlater : ∀ {cycle cycle' : Cycles} {task task' : Handle}, P cycle task →
      cycle.count < cycle'.count → P cycle' task')
    {target : Cycles} (hlast : target.count < Cycles.last.count) {limit : Nat} {s : Scheduler β}
    {context : C} (h : ∀ e ∈ s.agenda, P e.due e.task) :
    ∀ x ∈ (watch behave limit target s context).seen,
      P x.scheduler.epoch x.task ∧ x.scheduler.epoch.count ≤ target.count := by
  have hfire : ∀ {s s' : Scheduler β} {context context' : C} {e : Entry} {rest : List Entry},
      (∀ f ∈ s.agenda, P f.due f.task) → s.agenda = e :: rest → ¬ target < e.due →
      fire behave e s context = .ok (s', context') → ∀ f ∈ s'.agenda, P f.due f.task := by
    intro s s' context context' e rest h hs hdue hf f hfmem
    have hdue : e.due.count ≤ target.count := Nat.le_of_not_lt hdue
    rcases (fire_extends hb (by omega) hf).later f hfmem with hrest | hafter
    · exact h f (List.mem_of_mem_tail hrest)
    · exact hlater (h e (by simp [hs])) hafter
  intro x hx
  obtain ⟨s, e, rest, context, h, hs, hdue, rfl⟩ :=
    watch_induct (fun s _ => ∀ f ∈ s.agenda, P f.due f.task) hfire h x hx
  exact ⟨h e (by simp [hs]), Nat.le_of_not_lt hdue⟩

/-- A firing leaves nothing for an earlier cycle, and the task that fired is not armed again for
the cycle it fired on. -/
theorem fire_leaves (hb : NeverPoll behave) {s s' : Scheduler β} {e : Entry} {rest : List Entry}
    {context context' : C} (h : s.Orderly) (hs : s.agenda = e :: rest)
    (hlast : e.due.count < Cycles.last.count)
    (hf : fire behave e s context = .ok (s', context')) :
    ∀ f ∈ s'.agenda, e.due.count ≤ f.due.count ∧ (e.due = f.due → e.task ≠ f.task) := by
  have hsorted := h.sorted
  have hsingle := h.single
  rw [hs, List.pairwise_cons] at hsorted hsingle
  intro f hfmem
  rcases (fire_extends hb hlast hf).later f hfmem with hrest | hafter
  · have hrest : f ∈ s.agenda.tail := hrest
    rw [hs] at hrest
    exact ⟨Entry.due_le_of_before (hsorted.1 f hrest), fun _ => hsingle.1 f hrest⟩
  · have hafter : e.due.count < f.due.count := hafter
    refine ⟨Nat.le_of_lt hafter, fun heq => ?_⟩
    rw [heq] at hafter
    exact absurd hafter (Nat.lt_irrefl _)

/-- The clock only goes forward from one firing to another, and no task fires twice on a cycle. -/
theorem pairwise_watch (hb : NeverPoll behave) {target : Cycles}
    (hlast : target.count < Cycles.last.count) {limit : Nat} {s : Scheduler β} {context : C}
    (h : s.Orderly ∧ Home [] s) :
    (watch behave limit target s context).seen.Pairwise fun x y =>
      x.scheduler.epoch.count ≤ y.scheduler.epoch.count ∧
        (x.scheduler.epoch = y.scheduler.epoch → x.task ≠ y.task) := by
  induction limit generalizing s context with
  | zero => exact List.Pairwise.nil
  | succ limit ih =>
    by_cases hidle : ∀ e ∈ s.agenda.head?, target < e.due
    · rw [watch_of_idle hidle]
      exact List.Pairwise.nil
    · obtain ⟨e, rest, hs, hdue⟩ := exists_due hidle
      have hdue' : e.due.count ≤ target.count := Nat.le_of_not_lt hdue
      rw [watch_cons hs hdue]
      cases hf : fire behave e s context with
      | error stop => exact List.pairwise_singleton _ _
      | ok out =>
        refine List.pairwise_cons.mpr ⟨fun y hy => ?_, ih (fire_keeps hb h hf)⟩
        refine (watch_forall hb (P := fun cycle task => e.due.count ≤ cycle.count ∧
          (e.due = cycle → e.task ≠ task)) ?_ hlast
          (fire_leaves hb h.1 hs (by omega) hf) y hy).1
        rintro cycle cycle' task task' ⟨hle, -⟩ hlt
        refine ⟨by omega, fun heq => ?_⟩
        rw [heq] at hle
        omega

/-! ### Polling -/

/-- **Every poll to a target below the end of time comes to its end.**  On a scheduler that some
host has left behind, with any context and with tasks that never advance the clock themselves: from
some limit on, the poll fires the same tasks with the same outcome, which is that the clock arrives
at its target with nothing left to fire, or that the last of them breaks the contract.  All firings
are after the cycle that the poll starts on and not after its target, one after another, and no task
fires twice on the same cycle.

The host may have polled before with tasks of any kind, `past`, which advance the clock
themselves. -/
theorem poll_ends {Past : Type} (hb : NeverPoll behave) {past : Behaviour β Past} {limit : Nat}
    {host : Routine β Past} {start left : Past} {s : Scheduler β} {body : β}
    (hrun : host.run (poll past limit) {} start = .ok (body, s, left)) (context : C)
    {cycles : Cycles} (hlast : (s.epoch + cycles).count < Cycles.last.count) :
    ∃ enough w,
      (∀ limit, enough ≤ limit → watchPoll behave limit cycles s context = w ∧
        poll behave limit cycles s context = w.outcome) ∧
      (w.Arrives (s.epoch + cycles) ∨ w.Breaks behave) ∧
      (∀ x ∈ w.seen, s.epoch.count < x.scheduler.epoch.count ∧
        x.scheduler.epoch.count ≤ (s.epoch + cycles).count) ∧
      w.seen.Pairwise fun x y => x.scheduler.epoch.count ≤ y.scheduler.epoch.count ∧
        (x.scheduler.epoch = y.scheduler.epoch → x.task ≠ y.task) := by
  obtain ⟨horderly, hhome, hlater⟩ := keeps_of_run hrun
  have hepoch := count_le_add s.epoch cycles
  obtain ⟨enough, hsettled⟩ := advance_settles hb hlast s context horderly hhome
  refine ⟨enough, watchPoll behave enough cycles s context, ?_, ?_, ?_, ?_⟩
  · intro limit hle
    have hwatch : watchPoll behave limit cycles s context
        = watchPoll behave enough cycles s context := watch_of_settled hb hsettled hle
    refine ⟨hwatch, ?_⟩
    rw [← hwatch]
    exact (outcome_watch hb limit _ s context).symm
  · rw [← outcome_watch hb] at hsettled
    exact arrives_or_breaks hb ⟨horderly, hhome⟩ hsettled
  · exact watch_forall hb (P := fun cycle _ => s.epoch.count < cycle.count)
      (fun h hlt => Nat.lt_trans h hlt) hlast (hlater (by omega))
  · exact pairwise_watch hb hlast ⟨horderly, hhome⟩

/-- Every firing registers a task, and arms it and itself for the next cycle. -/
def breeding : Behaviour Unit Unit := fun _ task =>
  .register () fun born => .command (.arm born 1) (.command (.arm task 1) (.finish ()))

/-- A task that advances the clock by one cycle. -/
def dozing : Behaviour Unit Unit := fun _ _ => .poll 1 (.finish ())

/-- Such a task runs once, and is armed again. -/
def dozingHost : Routine Unit Unit :=
  .register () fun task => .command (.arm task 1) (.poll 3 (.command (.arm task 1) (.finish ())))

/-- What it leaves behind. -/
def dozed : Scheduler Unit :=
  { epoch := 3, turns := 2, bodies := #[some ()], agenda := [⟨4, 1, ⟨0⟩⟩] }

/-- With every cycle there are twice as many tasks, and on the third cycle four of them fire. -/
theorem poll_ends_breeding :
    NeverPoll breeding ∧ dozingHost.run (poll dozing 9) {} () = .ok ((), dozed, ()) ∧
      (dozed.epoch + 3).count < Cycles.last.count ∧
      (watchPoll breeding 9 3 dozed ()).seen.map (fun x => (x.task.index, x.scheduler.epoch))
        = [(0, 4), (1, 5), (0, 5), (2, 6), (1, 6), (3, 6), (0, 6)] ∧
      ∃ enough w,
        (∀ limit, enough ≤ limit → watchPoll breeding limit 3 dozed () = w ∧
          poll breeding limit 3 dozed () = w.outcome) ∧
        (w.Arrives (dozed.epoch + 3) ∨ w.Breaks breeding) ∧
        (∀ x ∈ w.seen, dozed.epoch.count < x.scheduler.epoch.count ∧
          x.scheduler.epoch.count ≤ (dozed.epoch + 3).count) ∧
        w.seen.Pairwise fun x y => x.scheduler.epoch.count ≤ y.scheduler.epoch.count ∧
          (x.scheduler.epoch = y.scheduler.epoch → x.task ≠ y.task) := by
  have hb : NeverPoll breeding :=
    fun _ task => .register () fun _ => .command _ (.command _ (.finish ()))
  have hrun : dozingHost.run (poll dozing 9) {} () = .ok ((), dozed, ()) := rfl
  have hlast : (dozed.epoch + 3).count < Cycles.last.count := by decide
  exact ⟨hb, hrun, hlast, rfl, poll_ends hb hrun () hlast⟩

end Cassette.Scheduler
