import Cassette.Proofs.Scheduler.Budget

/-!
# The step size does not matter

A host may advance the clock in one step or in several.  A task cannot see the target of the poll
that fires it, the clock shows its own due cycle while it runs, and when a step is over nothing is
left that was due in it.  So the tasks fire in the same order, and each finds the same scheduler and
the same context.

## Main definitions

* `Sighting` — what a task finds when it fires.
* `Watched`, `watch` — an advance, with the sightings of its tasks.
* `Watched.andThen` — two advances, one after the other.

## Main results

* `watch_induct` — what every firing keeps holds whenever a task fires.
* `outcome_watch` — watching changes nothing.
* `andThen_watch` — an advance may stop on the way, and the sightings are the same.
* `poll_poll` — **two polls do what one poll of both steps does.**
-/

namespace Cassette.Scheduler

variable {β C : Type}

/-! ### Watching an advance -/

/-- What a task finds when it fires: the scheduler, which gives the answers to all that it may ask
until it makes a change, and the context. -/
structure Sighting (β C : Type) where
  task : Handle
  scheduler : Scheduler β
  context : C

/-- An advance with the sightings of the tasks that fired, in order. -/
structure Watched (β C : Type) where
  seen : List (Sighting β C)
  outcome : Except (Fault × C) (Scheduler β × C)

namespace Watched

/-- The same with one firing before. -/
def after (x : Sighting β C) (w : Watched β C) : Watched β C := ⟨x :: w.seen, w.outcome⟩

/-- The one advance, and then the other unless the first has stopped. -/
def andThen (w : Watched β C) (next : Scheduler β → C → Watched β C) : Watched β C :=
  match w.outcome with
  | .ok (s, context) => ⟨w.seen ++ (next s context).seen, (next s context).outcome⟩
  | .error _ => w

theorem andThen_after (x : Sighting β C) (w : Watched β C)
    (next : Scheduler β → C → Watched β C) :
    (w.after x).andThen next = (w.andThen next).after x := by
  unfold andThen
  change (match w.outcome with | .ok (s, context) => _ | .error _ => _) = _
  cases w.outcome <;> rfl

end Watched

/-- `advance`, with the sightings of the tasks that fire. -/
def watch (behave : Behaviour β C) : Nat → Cycles → Scheduler β → C → Watched β C
  | 0, _, _, context => ⟨[], .error (.overrun, context)⟩
  | limit + 1, target, s, context =>
    match s.agenda with
    | [] => ⟨[], .ok ({ s with epoch := target }, context)⟩
    | e :: _ =>
      if target < e.due then ⟨[], .ok ({ s with epoch := target }, context)⟩
      else
        Watched.after ⟨e.task, s.takeOut e, context⟩
          (match fire behave e s context with
          | .error stop => ⟨[], .error stop⟩
          | .ok (s, context) => watch behave limit target s context)

variable {behave : Behaviour β C}

theorem watch_of_idle {s : Scheduler β} {target : Cycles}
    (h : ∀ e ∈ s.agenda.head?, target < e.due) (limit : Nat) (context : C) :
    watch behave (limit + 1) target s context
      = ⟨[], .ok ({ s with epoch := target }, context)⟩ := by
  unfold watch
  split
  · rfl
  · next e rest hs =>
    have he : target < e.due := h e (by rw [hs]; rfl)
    rw [if_pos he]

theorem watch_cons {s : Scheduler β} {e : Entry} {rest : List Entry} (hs : s.agenda = e :: rest)
    {target : Cycles} (hdue : ¬ target < e.due) (limit : Nat) (context : C) :
    watch behave (limit + 1) target s context
      = .after ⟨e.task, s.takeOut e, context⟩
          (match fire behave e s context with
          | .error stop => ⟨[], .error stop⟩
          | .ok (s, context) => watch behave limit target s context) := by
  rw [watch, hs]
  exact if_neg hdue

/-- What every firing keeps holds whenever a task fires. -/
theorem watch_induct (P : Scheduler β → C → Prop) {target : Cycles}
    (hfire : ∀ {s s' : Scheduler β} {context context' : C} {e : Entry} {rest : List Entry},
      P s context → s.agenda = e :: rest → ¬ target < e.due →
      fire behave e s context = .ok (s', context') → P s' context')
    {limit : Nat} {s : Scheduler β} {context : C} (h : P s context) :
    ∀ x ∈ (watch behave limit target s context).seen, ∃ s e rest context,
      P s context ∧ s.agenda = e :: rest ∧ ¬ target < e.due ∧
        x = ⟨e.task, s.takeOut e, context⟩ := by
  induction limit generalizing s context with
  | zero => simp [watch]
  | succ limit ih =>
    by_cases hidle : ∀ e ∈ s.agenda.head?, target < e.due
    · simp [watch_of_idle hidle]
    · obtain ⟨e, rest, hs, hdue⟩ := exists_due hidle
      rw [watch_cons hs hdue]
      intro x hx
      rcases List.mem_cons.mp hx with rfl | hx
      · exact ⟨s, e, rest, context, h, hs, hdue, rfl⟩
      · cases hf : fire behave e s context with
        | error stop => simp [hf] at hx
        | ok out =>
          rw [hf] at hx
          exact ih (hfire h hs hdue hf) x hx

/-- Watching changes nothing. -/
theorem outcome_watch (hb : NeverPoll behave) (limit : Nat) (target : Cycles) (s : Scheduler β)
    (context : C) :
    (watch behave limit target s context).outcome = advance behave limit target s context := by
  induction limit generalizing s context with
  | zero => rfl
  | succ limit ih =>
    by_cases hidle : ∀ e ∈ s.agenda.head?, target < e.due
    · rw [watch_of_idle hidle, advance_of_idle hidle]
    · obtain ⟨e, rest, hs, hdue⟩ := exists_due hidle
      rw [watch_cons hs hdue, advance_cons hb hs hdue]
      cases fire behave e s context with
      | error stop => rfl
      | ok out => exact ih out.1 out.2

/-- What a task finds does not depend on where the clock stood before. -/
theorem watch_epoch (epoch target : Cycles) (limit : Nat) (s : Scheduler β) (context : C) :
    watch behave limit target { s with epoch } context = watch behave limit target s context := by
  cases limit with
  | zero => rfl
  | succ limit =>
    by_cases hidle : ∀ e ∈ s.agenda.head?, target < e.due
    · rw [watch_of_idle hidle, watch_of_idle (s := { s with epoch }) hidle]
    · obtain ⟨e, rest, hs, hdue⟩ := exists_due hidle
      rw [watch_cons hs hdue, watch_cons (s := { s with epoch }) hs hdue]
      rfl

theorem watch_limit (target : Cycles) (limit extra : Nat) (s : Scheduler β) (context : C)
    (h : ¬ Overruns (watch behave limit target s context).outcome) :
    watch behave (limit + extra) target s context = watch behave limit target s context := by
  induction limit generalizing s context with
  | zero => exact absurd ⟨context, rfl⟩ h
  | succ limit ih =>
    rw [Nat.add_right_comm]
    by_cases hidle : ∀ e ∈ s.agenda.head?, target < e.due
    · rw [watch_of_idle hidle, watch_of_idle hidle]
    · obtain ⟨e, rest, hs, hdue⟩ := exists_due hidle
      rw [watch_cons hs hdue] at h ⊢
      rw [watch_cons hs hdue]
      cases hf : fire behave e s context with
      | error stop => rfl
      | ok out =>
        rw [hf] at h
        exact congrArg _ (ih out.1 out.2 h)

/-- An advance may stop on the way, and the sightings are the same. -/
theorem andThen_watch {first second : Cycles} (hle : first.count ≤ second.count) {limit more : Nat}
    {s : Scheduler β} {context : C}
    (h : ¬ Overruns
      ((watch behave limit first s context).andThen (watch behave more second)).outcome) :
    (watch behave limit first s context).andThen (watch behave more second)
      = watch behave (limit + more) second s context := by
  induction limit generalizing s context with
  | zero => exact absurd ⟨context, rfl⟩ h
  | succ limit ih =>
    by_cases hidle : ∀ e ∈ s.agenda.head?, first < e.due
    · -- nothing is due by the first target, so all the firings are those of the second part
      rw [watch_of_idle hidle] at h ⊢
      change ¬ Overruns (watch behave more second { s with epoch := first } context).outcome at h
      change watch behave more second { s with epoch := first } context = _
      rw [watch_epoch] at h ⊢
      rw [Nat.add_comm]
      exact (watch_limit second more (limit + 1) s context h).symm
    · obtain ⟨e, rest, hs, hdue⟩ := exists_due hidle
      have hdue' : ¬ second < e.due := by
        rw [Cycles.lt_iff] at *
        omega
      rw [watch_cons hs hdue, Watched.andThen_after] at h ⊢
      rw [Nat.add_right_comm, watch_cons hs hdue']
      cases hf : fire behave e s context with
      | error stop => rfl
      | ok out =>
        rw [hf] at h
        exact congrArg _ (ih h)

/-! ### Reached schedulers -/

/-- What a host leaves behind is orderly, with every body in its place, and before the end of time
with nothing due. -/
theorem keeps_of_run {limit : Nat} {host : Routine β C} {s : Scheduler β} {start context : C}
    {body : β} (hrun : host.run (poll behave limit) {} start = .ok (body, s, context)) :
    s.Orderly ∧ Home [] s ∧
      (s.epoch.count < Cycles.last.count → ∀ e ∈ s.agenda, s.epoch.count < e.due.count) := by
  refine host.run_induct (fun s => s.Orderly ∧ Home [] s ∧
    (s.epoch.count < Cycles.last.count → ∀ e ∈ s.agenda, s.epoch.count < e.due.count))
    ?_ ?_ ?_ ⟨.new, home_new, fun _ e he => by simp at he⟩ hrun
  · intro c s s' ⟨horderly, hhome, hlater⟩ ha
    refine ⟨horderly.apply ha, hhome.apply ha, ?_⟩
    rw [epoch_of_apply ha]
    intro hlast e he
    rcases apply_cases ha with rfl | ⟨task, rfl⟩ | ⟨task, delay, -, hd, rfl⟩
    · exact hlater hlast e he
    · exact hlater hlast e (mem_agenda_dismiss.mp he).1
    · rcases mem_enter.mp he with rfl | he
      · exact count_lt_add hd hlast
      · exact hlater hlast e (mem_agenda_dismiss.mp he).1
  · intro s body ⟨horderly, hhome, hlater⟩
    exact ⟨horderly.register body, hhome.register body, hlater⟩
  · intro cycles s s' context context' h hpoll
    obtain ⟨horderly, hhome, hepoch, hlater⟩ := advance_keeps ⟨h.1, h.2.1⟩ hpoll
    rw [hepoch]
    exact ⟨horderly, hhome, fun _ => hlater⟩

/-! ### Two steps and one -/

/-- A poll, with the sightings of the tasks that fire. -/
def watchPoll (behave : Behaviour β C) (limit : Nat) (cycles : Cycles) (s : Scheduler β)
    (context : C) : Watched β C :=
  watch behave limit (s.epoch + cycles) s context

/-- From a limit on that is high enough, an advance is watched the same. -/
theorem watch_of_settled (hb : NeverPoll behave) {enough limit : Nat} {target : Cycles}
    {s : Scheduler β} {context : C} (h : Settled (advance behave enough target s context))
    (hle : enough ≤ limit) :
    watch behave limit target s context = watch behave enough target s context := by
  obtain ⟨extra, rfl⟩ := Nat.exists_eq_add_of_le hle
  rw [← outcome_watch hb] at h
  exact watch_limit target enough extra s context h.not_overruns

theorem Settled.of_le (hb : NeverPoll behave) {enough limit : Nat} {target : Cycles}
    {s : Scheduler β} {context : C} (h : Settled (advance behave enough target s context))
    (hle : enough ≤ limit) : Settled (advance behave limit target s context) := by
  rw [← outcome_watch hb, watch_of_settled hb h hle, outcome_watch hb]
  exact h

/-- The second of two polls has a target of its own, which some limit is high enough for. -/
theorem exists_enough (hb : NeverPoll behave) {first second : Cycles} {b : Cycles} {enough : Nat}
    {s : Scheduler β} {context : C} (h : s.Orderly) (hhome : Home [] s)
    (htarget : first + b = second)
    (hlast : second.count < Cycles.last.count)
    (hsettled : Settled (advance behave enough first s context)) :
    ∃ more, ∀ limit limit', enough ≤ limit → more ≤ limit' →
      (watch behave limit first s context).andThen (watchPoll behave limit' b)
          = (watch behave limit first s context).andThen (watch behave limit' second) ∧
        Settled
          ((watch behave limit first s context).andThen (watch behave limit' second)).outcome := by
  cases hx : advance behave enough first s context with
  | error stop =>
    refine ⟨0, ?_⟩
    intro limit limit' hle _
    have houtcome : (watch behave limit first s context).outcome = .error stop := by
      rw [watch_of_settled hb hsettled hle, outcome_watch hb, hx]
    unfold Watched.andThen
    rw [houtcome]
    refine ⟨rfl, ?_⟩
    rw [houtcome, ← hx]
    exact hsettled
  | ok out =>
    obtain ⟨s₁, hkeeps, hs₁, -⟩ := advance_induct hb (fun s _ => s.Orderly ∧ Home [] s)
      (fun h _ _ hf => fire_keeps hb h hf) ⟨h, hhome⟩ hx
    have horderly : out.1.Orderly := by
      rw [hs₁]
      exact hkeeps.1.setEpoch first
    have hhome' : Home [] out.1 := by
      rw [hs₁]
      exact hkeeps.2
    have hepoch : out.1.epoch + b = second := by rw [hs₁, ← htarget]
    obtain ⟨more, hmore⟩ := advance_settles hb hlast out.1 out.2 horderly hhome'
    refine ⟨more, ?_⟩
    intro limit limit' hle hle'
    have houtcome : (watch behave limit first s context).outcome = .ok out := by
      rw [watch_of_settled hb hsettled hle, outcome_watch hb, hx]
    unfold Watched.andThen
    rw [houtcome]
    simp only [watchPoll, hepoch]
    refine ⟨trivial, ?_⟩
    rw [outcome_watch hb]
    exact hmore.of_le hb hle'

/-- **Two polls do what one poll of both steps does.**  On a scheduler that some host has left
behind, with any context and with tasks that never advance the clock themselves, and as long as the
end of time is not reached: the same tasks fire in the same order, each finds the same scheduler
and the same context, and the same scheduler and context are left, or the same breach of the
contract stops both.  Watching is polling, and from some limit on nothing overruns. -/
theorem poll_poll (hb : NeverPoll behave) {limit : Nat} {host : Routine β C} {s : Scheduler β}
    {start left : C} {body : β}
    (hrun : host.run (poll behave limit) {} start = .ok (body, s, left)) (context : C)
    {a b : Cycles} (hlast : s.epoch.count + a.count + b.count < Cycles.last.count) :
    (∀ limit cycles (s : Scheduler β) context,
      (watchPoll behave limit cycles s context).outcome = poll behave limit cycles s context) ∧
    ∃ enough, ∀ first second whole, enough ≤ first → enough ≤ second → enough ≤ whole →
      (watchPoll behave first a s context).andThen (watchPoll behave second b)
          = watchPoll behave whole (a + b) s context ∧
        Settled (poll behave whole (a + b) s context) := by
  refine ⟨fun limit cycles s context => outcome_watch hb limit _ s context, ?_⟩
  obtain ⟨horderly, hhome, -⟩ := keeps_of_run hrun
  have htarget : s.epoch + a + b = s.epoch + (a + b) := by
    apply Cycles.ext
    simp only [Cycles.count_add, Cycles.count_last] at *
    omega
  have hfirst : (s.epoch + a).count < Cycles.last.count := by
    simp only [Cycles.count_add, Cycles.count_last] at *
    omega
  have hwhole : (s.epoch + (a + b)).count < Cycles.last.count := by
    simp only [Cycles.count_add, Cycles.count_last] at *
    omega
  have hle : (s.epoch + a).count ≤ (s.epoch + (a + b)).count := by
    rw [← htarget]
    exact count_le_add _ _
  obtain ⟨enough₁, h₁⟩ := advance_settles hb hfirst s context horderly hhome
  obtain ⟨enough₂, h₂⟩ := advance_settles hb hwhole s context horderly hhome
  obtain ⟨more, hmore⟩ := exists_enough hb horderly hhome htarget hwhole h₁
  refine ⟨max (max enough₁ enough₂) more, ?_⟩
  intro first second whole hfirst hsecond hwhole
  obtain ⟨hnext, hsettled⟩ := hmore first second (by omega) (by omega)
  refine ⟨?_, h₂.of_le hb (by omega)⟩
  calc (watchPoll behave first a s context).andThen (watchPoll behave second b)
      = (watch behave first (s.epoch + a) s context).andThen
          (watch behave second (s.epoch + (a + b))) := hnext
    _ = watch behave (first + second) (s.epoch + (a + b)) s context :=
      andThen_watch hle hsettled.not_overruns
    _ = watch behave enough₂ (s.epoch + (a + b)) s context := watch_of_settled hb h₂ (by omega)
    _ = watchPoll behave whole (a + b) s context := (watch_of_settled hb h₂ (by omega)).symm

/-- A task that arms itself again and counts what it finds armed. -/
def tally : Behaviour Unit Nat := fun _ task =>
  .ask .pending fun (pending : Nat) => .update (· + pending) (.command (.arm task 3) (.finish ()))

/-- Two such tasks, which fall due in turn. -/
def tallyHost : Routine Unit Nat :=
  .register () fun first => .register () fun second => .command (.arm first 2)
    (.command (.arm second 3) (.finish ()))

/-- What it leaves behind. -/
def tallied : Scheduler Unit :=
  { turns := 2, bodies := #[some (), some ()], agenda := [⟨2, 0, ⟨0⟩⟩, ⟨3, 1, ⟨1⟩⟩] }

/-- A step of four cycles and one of five: two firings in the first, four in the second. -/
theorem poll_poll_tally :
    NeverPoll tally ∧ tallyHost.run (poll tally 0) {} 0 = .ok ((), tallied, 0) ∧
      tallied.epoch.count + (4 : Cycles).count + (5 : Cycles).count < Cycles.last.count ∧
      (watchPoll tally 9 4 tallied 7).seen.map
          (fun x => (x.task.index, x.scheduler.epoch, x.context))
        = [(0, 2, 7), (1, 3, 8)] ∧
      (watchPoll tally 9 (4 + 5) tallied 7).seen.map
          (fun x => (x.task.index, x.scheduler.epoch, x.context))
        = [(0, 2, 7), (1, 3, 8), (0, 5, 9), (1, 6, 10), (0, 8, 11), (1, 9, 12)] ∧
      (∀ limit cycles (s : Scheduler Unit) context,
        (watchPoll tally limit cycles s context).outcome = poll tally limit cycles s context) ∧
      ∃ enough, ∀ first second whole, enough ≤ first → enough ≤ second → enough ≤ whole →
        (watchPoll tally first 4 tallied 7).andThen (watchPoll tally second 5)
            = watchPoll tally whole (4 + 5) tallied 7 ∧
          Settled (poll tally whole (4 + 5) tallied 7) := by
  have hb : NeverPoll tally :=
    fun _ task => .ask .pending fun _ => .read fun _ => .write _ (.command _ (.finish ()))
  have hrun : tallyHost.run (poll tally 0) {} 0 = .ok ((), tallied, 0) := rfl
  have hlast :
      tallied.epoch.count + (4 : Cycles).count + (5 : Cycles).count < Cycles.last.count := by
    decide
  obtain ⟨hwatch, henough⟩ := poll_poll hb hrun 7 hlast
  exact ⟨hb, hrun, hlast, rfl, rfl, hwatch, henough⟩

end Cassette.Scheduler
