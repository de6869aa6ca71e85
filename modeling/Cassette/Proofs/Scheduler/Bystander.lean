import Cassette.Proofs.Scheduler.Alike
import Cassette.Proofs.Scheduler.Contract

/-!
# Bystanders

Tasks that share a scheduler have the agenda and the clock in common.  A task that does nothing when
it fires takes turns, stands in the agenda between the others and sets the clock while it fires, and
still the others cannot tell whether it is armed at all, as long as they do not ask.

Here a run is set beside the same run without the commands on one task.  A step that has nothing to
do with the task is taken by both, and the others by one alone: a command on the task is one such
step, and a firing of the task is two, between which the clock shows the cycle that the task was due
on.  The tasks may advance the clock themselves, and then all of this goes on inside nested polls.

## Main definitions

* `Routine.without task`, `Routine.Blind task` — a routine without its commands on `task`, and one
  that does not look at `task`.
* `Machine.Passes` — a run, and the firings on the way.
* `Machine.Twin task` — two machines at the same point, of which the second is without `task`.
* `Machine.Shows`, `Machine.Agrees` — what the host and the other tasks see.

## Main results

* `Twin.paired` — what has nothing to do with the task is done side by side.
* `Twin.command`, `Twin.fire` — what has to do with it is not seen in the other run.
* `Passes.shadow`, `Passes.light` — from one run to the other, and back.
* `others_undisturbed` — **unrelated tasks do not disturb each other.**
-/

namespace Cassette.Scheduler

variable {β C : Type}

/-! ### Routines that do not look at a task -/

namespace Routine

/-- The routine without its commands on `task`. -/
def without (task : Handle) : Routine β C → Routine β C
  | .finish body => .finish body
  | .command c next =>
    if c.task = task then next.without task else .command c (next.without task)
  | .register body next => .register body fun issued => (next issued).without task
  | .ask q next => .ask q fun answer => (next answer).without task
  | .read next => .read fun context => (next context).without task
  | .write context next => .write context (next.without task)
  | .poll cycles next => .poll cycles (next.without task)

/-- What the routine does depends on no answer that tells of `task`. -/
inductive Blind (task : Handle) : Routine β C → Prop where
  | finish (body : β) : Blind task (.finish body)
  | command (c : Command) {next : Routine β C} : Blind task next → Blind task (.command c next)
  | register (body : β) {next : Handle → Routine β C} :
      (∀ issued, Blind task (next issued)) → Blind task (.register body next)
  | ask (q : Query) {next : q.Answer → Routine β C} :
      (q.Reveals task → ∀ answer other, next answer = next other) →
      (∀ answer, Blind task (next answer)) → Blind task (.ask q next)
  | read {next : C → Routine β C} :
      (∀ context, Blind task (next context)) → Blind task (.read next)
  | write (context : C) {next : Routine β C} : Blind task next → Blind task (.write context next)
  | poll (cycles : Cycles) {next : Routine β C} : Blind task next → Blind task (.poll cycles next)

end Routine

/-- The tasks without their commands on `task`. -/
def Behaviour.without (task : Handle) (behave : Behaviour β C) : Behaviour β C :=
  fun body fired => (behave body fired).without task

/-- A poll that waits, without the commands on `task` in what follows it. -/
def Call.without (task : Handle) (call : Call β C) : Call β C :=
  { call with next := call.next.without task }

namespace Machine

variable {behave : Behaviour β C} {host : Routine β C} {context : C} {task : Handle}

/-! ### Two runs side by side -/

/-- What fires in the next step, and on which cycle. -/
def firing (m : Machine β C) : Option (Handle × Cycles) :=
  match m.doing with
  | .routine _ => none
  | .loop target _ =>
    match m.ledger.pending with
    | [] => none
    | e :: _ => if target < e.due then none else some (e.task, e.due)

/-- A run to `m`, and the firings on the way. -/
inductive Passes (behave : Behaviour β C) (first : Machine β C) :
    List (Handle × Cycles) → Machine β C → Prop where
  | refl : Passes behave first [] first
  | step {log : List (Handle × Cycles)} {m m' : Machine β C} (h : Passes behave first log m)
      (hstep : m.step behave = .ok (some m')) : Passes behave first (log ++ m.firing.toList) m'

theorem Passes.reaches {first m : Machine β C} {log : List (Handle × Cycles)}
    (h : Passes behave first log m) : Reaches behave first m := by
  induction h with
  | refl => exact .refl
  | step _ hstep ih => exact .tail ih hstep

theorem exists_passes {first m : Machine β C} (h : Reaches behave first m) :
    ∃ log, Passes behave first log m := by
  induction h with
  | refl => exact ⟨[], .refl⟩
  | tail _ hstep ih =>
    obtain ⟨log, hlog⟩ := ih
    exact ⟨_, hlog.step hstep⟩

/-- The second machine is at the same point without `task`.  In the loop of a poll the clocks may
differ, for the last to fire may have been `task`. -/
inductive Twin (task : Handle) : Machine β C → Machine β C → Prop where
  | routine {l l' : Ledger β} (context : C) {r : Routine β C} {calls : List (Call β C)}
      (halike : Alike task l.view l'.view) (hepoch : l.epoch = l'.epoch) (hr : r.Blind task)
      (hcalls : ∀ call ∈ calls, call.task ≠ task ∧ call.next.Blind task) :
      Twin task ⟨l, context, .routine r, calls⟩
        ⟨l', context, .routine (r.without task), calls.map (Call.without task)⟩
  | loop {l l' : Ledger β} (context : C) (target : Cycles) {next : Routine β C}
      {calls : List (Call β C)} (halike : Alike task l.view l'.view) (hnext : next.Blind task)
      (hcalls : ∀ call ∈ calls, call.task ≠ task ∧ call.next.Blind task) :
      Twin task ⟨l, context, .loop target next, calls⟩
        ⟨l', context, .loop target (next.without task), calls.map (Call.without task)⟩

/-- The next step is a command on `task`. -/
def Commands (task : Handle) (m : Machine β C) : Prop :=
  ∃ c next, m.doing = .routine (.command c next) ∧ c.task = task

/-- The next step has nothing to do with `task`. -/
def Aside (task : Handle) (m : Machine β C) : Prop :=
  ¬ m.Commands task ∧ ∀ fired ∈ m.firing, fired.1 ≠ task

theorem firing_of_idle {l : Ledger β} {context : C} {target : Cycles} {next : Routine β C}
    {calls : List (Call β C)} (h : ∀ e ∈ l.pending.head?, target < e.due) :
    firing ⟨l, context, .loop target next, calls⟩ = none := by
  unfold firing
  cases hpending : l.pending with
  | nil => rfl
  | cons e rest =>
    have he : target < e.due := h e (by rw [hpending]; rfl)
    exact if_pos he

theorem firing_of_due {l : Ledger β} {context : C} {target : Cycles} {next : Routine β C}
    {calls : List (Call β C)} {e : Entry} {rest : List Entry} (hpending : l.pending = e :: rest)
    (hdue : ¬ target < e.due) :
    firing ⟨l, context, .loop target next, calls⟩ = some (e.task, e.due) := by
  simp only [firing, hpending, if_neg hdue]

/-- A request is done side by side, if it is not a command on `task`. -/
theorem paired_routine {l l' : Ledger β} (context : C) {r : Routine β C} {calls : List (Call β C)}
    (hs : l.Sound) (hs' : l'.Sound) (halike : Alike task l.view l'.view)
    (hepoch : l.epoch = l'.epoch) (hr : r.Blind task)
    (hcalls : ∀ call ∈ calls, call.task ≠ task ∧ call.next.Blind task)
    (haside : ¬ Commands task ⟨l, context, .routine r, calls⟩) :
    Paired (Option.Rel (Twin task)) (step behave ⟨l, context, .routine r, calls⟩)
      (step (behave.without task)
        ⟨l', context, .routine (r.without task), calls.map (Call.without task)⟩) := by
  cases hr with
  | finish body =>
    cases calls with
    | nil => exact .ok .none
    | cons call calls =>
      obtain ⟨hcall, hrest⟩ := List.forall_mem_cons.mp hcalls
      refine .ok (.some (.loop context call.target ?_ hcall.2 hrest))
      rw [Ledger.putBack_view, Ledger.putBack_view]
      exact halike.putBack call.task body
  | @command c next hnext =>
    have hc : c.task ≠ task := fun heq => haside ⟨c, next, rfl, heq⟩
    have happly := halike.apply hs.orderly hs'.orderly hepoch hc
    rw [hs.apply_view, hs'.apply_view] at happly
    rw [Routine.without, if_neg hc]
    refine happly.of_map.map ?_
    rintro l₁ l₁' ⟨hnew, hclock⟩
    exact .some (.routine context hnew hclock hnext hcalls)
  | @register body next hnext =>
    obtain ⟨hissued, hnew⟩ := halike.register body
    rw [← (l.register_view body).1, ← (l'.register_view body).1] at hissued
    rw [← (l.register_view body).2, ← (l'.register_view body).2] at hnew
    have htwin := Twin.routine context hnew hepoch (hnext (l.register body).1) hcalls
    rw [hissued] at htwin
    change Paired _ (.ok (some _)) (.ok (some _))
    rw [hissued]
    exact .ok (.some htwin)
  | @ask q next hreveals hnext =>
    have hask := halike.ask hepoch q
    rw [hs.ask_view, hs'.ask_view] at hask
    refine hask.map ?_
    intro answer answer' heq
    -- an answer that tells of the task makes no difference
    have hsame : next answer = next answer' := by
      rcases heq with hq | rfl
      · exact hreveals hq answer answer'
      · rfl
    dsimp only
    rw [← hsame]
    exact .some (.routine context halike hepoch (hnext answer) hcalls)
  | read hnext => exact .ok (.some (.routine context halike hepoch (hnext context) hcalls))
  | write written hnext => exact .ok (.some (.routine written halike hepoch hnext hcalls))
  | @poll cycles next hnext =>
    have htwin := Twin.loop context (l.epoch + cycles) halike hnext hcalls
    change Paired _ (.ok (some _)) (.ok (some _))
    rw [← hepoch]
    exact .ok (.some htwin)

/-- A turn of the loop of a poll is done side by side, if it does not fire `task`. -/
theorem paired_loop {l l' : Ledger β} (context : C) (target : Cycles) {next : Routine β C}
    {calls : List (Call β C)} (hs : l.Sound) (halike : Alike task l.view l'.view)
    (hblind : ∀ body fired, (behave body fired).Blind task) (hnext : next.Blind task)
    (hcalls : ∀ call ∈ calls, call.task ≠ task ∧ call.next.Blind task)
    (haside : ∀ fired ∈ firing ⟨l, context, .loop target next, calls⟩, fired.1 ≠ task) :
    firing ⟨l, context, .loop target next, calls⟩
        = firing ⟨l', context, .loop target (next.without task), calls.map (Call.without task)⟩ ∧
      Paired (Option.Rel (Twin task)) (step behave ⟨l, context, .loop target next, calls⟩)
        (step (behave.without task)
          ⟨l', context, .loop target (next.without task), calls.map (Call.without task)⟩) := by
  by_cases hidle : ∀ e ∈ l.pending.head?, target < e.due
  · have hidle' : ∀ e ∈ l'.pending.head?, target < e.due := by
      intro e' he'
      obtain ⟨e, he, heq⟩ := halike.exists_mem (List.mem_of_mem_head? he')
      rw [← heq]
      exact hs.orderly.later hidle e he
    refine ⟨(firing_of_idle hidle).trans (firing_of_idle hidle').symm, ?_⟩
    rw [step_of_idle hidle, step_of_idle hidle']
    exact .ok (.some (.routine context (halike.setEpoch target) rfl hnext hcalls))
  · obtain ⟨e, rest, hpending, hdue⟩ := exists_due (s := l.view) hidle
    replace hpending : l.pending = e :: rest := hpending
    have hne : e.task ≠ task := haside _ (firing_of_due hpending hdue)
    obtain ⟨e', rest', hpending', htask, hdue', hnew⟩ := halike.exists_cons hpending hne
    replace hpending' : l'.pending = e' :: rest' := hpending'
    have hbody := halike.body? hne
    rw [l.body?_view, l'.body?_view] at hbody
    rw [← l.takeOut_view, ← l'.takeOut_view] at hnew
    have hlate : ¬ target < e'.due := by rwa [hdue']
    rw [firing_of_due hpending hdue, firing_of_due hpending' hlate, step_of_due hpending hdue,
      step_of_due hpending' hlate, htask, hdue', hbody]
    refine ⟨rfl, ?_⟩
    cases l'.body? e.task with
    | none => exact .error _
    | some body =>
      refine .ok (.some (.routine context hnew hdue'.symm (hblind body e.task) ?_))
      exact List.forall_mem_cons.mpr ⟨⟨hne, hnext⟩, hcalls⟩

/-- What has nothing to do with `task` is done side by side. -/
theorem Twin.paired {m m' : Machine β C} (h : Twin task m m') (hs : m.ledger.Sound)
    (hs' : m'.ledger.Sound) (hblind : ∀ body fired, (behave body fired).Blind task)
    (haside : m.Aside task) :
    m.firing = m'.firing ∧
      Paired (Option.Rel (Twin task)) (m.step behave) (m'.step (behave.without task)) := by
  cases h with
  | routine context halike hepoch hr hcalls =>
    exact ⟨rfl, paired_routine context hs hs' halike hepoch hr hcalls haside.1⟩
  | loop context target halike hnext hcalls =>
    exact paired_loop context target hs halike hblind hnext hcalls haside.2

theorem exists_of_firing {m : Machine β C} {fired : Handle × Cycles} (h : m.firing = some fired) :
    ∃ target next e rest, m.doing = .loop target next ∧ m.ledger.pending = e :: rest ∧
      ¬ target < e.due ∧ fired = (e.task, e.due) := by
  obtain ⟨l, context, doing, calls⟩ := m
  cases doing with
  | routine r => simp [firing] at h
  | loop target next =>
    by_cases hidle : ∀ e ∈ l.pending.head?, target < e.due
    · rw [firing_of_idle hidle] at h
      simp at h
    · obtain ⟨e, rest, hpending, hdue⟩ := exists_due (s := l.view) hidle
      replace hpending : l.pending = e :: rest := hpending
      rw [firing_of_due hpending hdue] at h
      exact ⟨target, next, e, rest, rfl, hpending, hdue, (Option.some.inj h).symm⟩

/-- A command on `task` is a step that the other run does not see. -/
theorem Twin.command {m m₁ m' : Machine β C} (h : Twin task m m') (hs : m.ledger.Sound)
    (hc : m.Commands task) (hstep : m.step behave = .ok (some m₁)) :
    m.firing = none ∧ Twin task m₁ m' := by
  obtain ⟨c, next, hdoing, htask⟩ := hc
  cases h with
  | loop => simp at hdoing
  | @routine l l' context r calls halike hepoch hr hcalls =>
    obtain rfl : r = .command c next := Doing.routine.inj hdoing
    obtain ⟨l₁, ha, hm⟩ := map_ok hstep
    obtain rfl := Option.some.inj hm
    cases hr with
    | command _ hnext =>
      have hview : c.apply l.view = .ok l₁.view := by rw [hs.apply_view, ha]; rfl
      rw [Routine.without, if_pos htask]
      exact ⟨rfl, .routine context (halike.apply_self htask hview)
        ((Ledger.epoch_of_apply ha).trans hepoch) hnext hcalls⟩

/-- A firing of `task`, which does nothing, is two steps that the other run does not see. -/
theorem Twin.fire {m m' : Machine β C} (h : Twin task m m') (hs : m.ledger.Sound)
    (hin : m.InPlace)
    (hidle : ∀ body, m.ledger.body? task = some body → ∃ kept, behave body task = .finish kept)
    {cycle : Cycles} (hfiring : m.firing = some (task, cycle)) :
    ∃ m₁ m₂, m.step behave = .ok (some m₁) ∧ m₁.step behave = .ok (some m₂) ∧
      task ∈ m₁.running ∧ m₁.firing = none ∧ Twin task m₂ m' ∧ m₂.Aside task := by
  obtain ⟨target, next, e, rest, hdoing, hpending, hdue, hfired⟩ := exists_of_firing hfiring
  obtain ⟨htask, -⟩ := Prod.mk.inj hfired
  cases h with
  | routine => simp at hdoing
  | @loop l l' context target' next' calls halike hnext hcalls =>
    obtain ⟨rfl, rfl⟩ := Doing.loop.inj hdoing
    have he : e ∈ l.pending := by rw [hpending]; exact List.mem_cons_self
    have howns : l.Owns task := by
      rw [htask]
      exact Ledger.owns_view.mp (hs.orderly.owned e he)
    -- the task is not running, so its body is in its place
    obtain ⟨body, hbody⟩ : ∃ body, l.body? task = some body := by
      refine Option.ne_none_iff_exists'.mp fun hnone => ?_
      have hrunning := (hin.misses_iff task).mp ⟨howns, hnone⟩
      obtain ⟨call, hcall, hself⟩ := List.mem_map.mp hrunning
      exact (hcalls call hcall).1 hself
    obtain ⟨kept, hkept⟩ := hidle body hbody
    have hstep : step behave ⟨l, context, .loop target' next', calls⟩ = _ :=
      step_of_due hpending hdue
    rw [← htask, hbody] at hstep
    dsimp only at hstep
    rw [hkept] at hstep
    refine ⟨_, _, hstep, rfl, List.mem_cons_self, rfl, ?_, ?_, ?_⟩
    · refine .loop context target' ?_ hnext hcalls
      rw [Ledger.putBack_view, Ledger.takeOut_view]
      exact halike.fire_self hpending htask.symm kept
    · rintro ⟨c, after, hroutine, -⟩
      simp at hroutine
    · -- it has no other occurrence
      rintro fired hagain rfl
      obtain ⟨_, _, f, _, -, hfirst, -, hf⟩ := exists_of_firing hagain
      have hmem : f ∈ l.pending.tail := by
        have hfirst : l.pending.tail = f :: _ := hfirst
        rw [hfirst]
        exact List.mem_cons_self
      have hsingle : l.pending.Pairwise fun e f => e.task ≠ f.task := hs.orderly.single
      rw [hpending, List.pairwise_cons] at hsingle
      rw [hpending, List.tail_cons] at hmem
      refine hsingle.1 f hmem ?_
      rw [← htask, hf]

/-- A step is about `task`, or not. -/
theorem aside_or (task : Handle) (m : Machine β C) :
    m.Aside task ∨ m.Commands task ∨ ∃ cycle, m.firing = some (task, cycle) := by
  by_cases hc : m.Commands task
  · exact Or.inr (Or.inl hc)
  · by_cases hf : ∃ cycle, m.firing = some (task, cycle)
    · exact Or.inr (Or.inr hf)
    · refine Or.inl ⟨hc, ?_⟩
      rintro ⟨_, cycle⟩ hfired rfl
      exact hf ⟨cycle, hfired⟩

/-- No body that `task` has in the run does anything when it fires. -/
def Idles (behave : Behaviour β C) (host : Routine β C) (context : C) (task : Handle) : Prop :=
  ∀ m, Reaches behave (start host context) m → ∀ body, m.ledger.body? task = some body →
    ∃ kept, behave body task = .finish kept

/-- The firings of the other tasks. -/
abbrev besides (task : Handle) (log : List (Handle × Cycles)) : List (Handle × Cycles) :=
  log.filter (·.1 ≠ task)

theorem twin_start (hhost : host.Blind task) (context : C) :
    Twin task (start host context) (start (host.without task) context) := by
  refine .routine context ⟨rfl, fun _ _ => rfl, rfl, ?_⟩ rfl hhost ?_
  · intro e he
    simp [Ledger.view] at he
  · intro call hcall
    simp at hcall

/-- `m` is at the same point as `m'`, or in the firing of `task`. -/
def Near (behave : Behaviour β C) (task : Handle) (m m' : Machine β C) : Prop :=
  Twin task m m' ∨ (task ∈ m.running ∧ m.firing = none ∧
    ∃ m₁, m.step behave = .ok (some m₁) ∧ Twin task m₁ m')

theorem besides_append (log : List (Handle × Cycles)) (m : Machine β C) (task : Handle) :
    besides task (log ++ m.firing.toList) = besides task log ++ besides task m.firing.toList :=
  List.filter_append _ _

theorem besides_aside {m : Machine β C} (h : m.Aside task) (log : List (Handle × Cycles)) :
    besides task (log ++ m.firing.toList) = besides task log ++ m.firing.toList := by
  rw [besides_append]
  refine congrArg _ (List.filter_eq_self.mpr ?_)
  intro fired hfired
  simpa using h.2 fired (by simpa using hfired)

theorem besides_self {m : Machine β C} {cycle : Cycles} (h : m.firing = some (task, cycle))
    (log : List (Handle × Cycles)) : besides task (log ++ m.firing.toList) = besides task log := by
  rw [besides_append, h]
  simp [besides]

theorem besides_quiet {m : Machine β C} (h : m.firing = none) (log : List (Handle × Cycles)) :
    log ++ m.firing.toList = log := by
  simp [h]

/-- Every state of the run is near one of the run without the commands on `task`. -/
theorem Passes.shadow (hblind : ∀ body fired, (behave body fired).Blind task)
    (hhost : host.Blind task) (hidle : Idles behave host context task)
    {log : List (Handle × Cycles)} {m : Machine β C}
    (h : Passes behave (start host context) log m) :
    ∃ m', Passes (behave.without task) (start (host.without task) context) (besides task log) m' ∧
      Near behave task m m' := by
  induction h with
  | refl => exact ⟨_, .refl, Or.inl (twin_start hhost context)⟩
  | @step log m m₁ hpasses hstep ih =>
    obtain ⟨m', hpasses', hnear⟩ := ih
    have hs := sound_of_reaches hpasses.reaches
    have hs' := sound_of_reaches hpasses'.reaches
    rcases hnear with htwin | ⟨-, hquiet, m₂, hstep₂, htwin⟩
    · rcases aside_or task m with haside | hcommand | ⟨cycle, hfiring⟩
      · -- both runs take the step
        obtain ⟨hfiring, hpaired⟩ := htwin.paired hs hs' hblind haside
        rw [hstep] at hpaired
        obtain ⟨m₁', hstep', htwin₁⟩ := hpaired.some_left
        refine ⟨m₁', ?_, Or.inl htwin₁⟩
        rw [besides_aside haside, hfiring]
        exact hpasses'.step hstep'
      · obtain ⟨hquiet, htwin₂⟩ := htwin.command hs hcommand hstep
        rw [besides_quiet hquiet]
        exact ⟨m', hpasses', Or.inl htwin₂⟩
      · obtain ⟨m₂, m₃, hstep₂, hstep₃, hrunning, hquiet, htwin₃, -⟩ :=
          htwin.fire hs (inPlace_of_reaches hpasses.reaches) (hidle m hpasses.reaches) hfiring
        obtain rfl : m₁ = m₂ := Option.some.inj (Except.ok.inj (hstep.symm.trans hstep₂))
        rw [besides_self hfiring]
        exact ⟨m', hpasses', Or.inr ⟨hrunning, hquiet, m₃, hstep₃, htwin₃⟩⟩
    · obtain rfl : m₁ = m₂ := Option.some.inj (Except.ok.inj (hstep.symm.trans hstep₂))
      rw [besides_quiet hquiet]
      exact ⟨m', hpasses', Or.inl htwin⟩

/-- The run stops at a command on `task`. -/
def Stuck (behave : Behaviour β C) (task : Handle) (m : Machine β C) : Prop :=
  m.Commands task ∧ ∃ fault, m.step behave = .error fault

/-- From where the two runs are at the same point, the one with the commands on `task` comes to a
step that has nothing to do with `task`, or it stops at such a command. -/
theorem Twin.settle (hidle : Idles behave host context task) {log : List (Handle × Cycles)}
    {m m' : Machine β C} (h : Twin task m m')
    (hpasses : Passes behave (start host context) log m) :
    ∃ log₁ m₁, Passes behave (start host context) log₁ m₁ ∧ besides task log₁ = besides task log ∧
      Twin task m₁ m' ∧ (m₁.Aside task ∨ m₁.Stuck behave task) := by
  obtain ⟨l, context₁, doing, calls⟩ := m
  cases doing with
  | loop target next =>
    rcases aside_or task ⟨l, context₁, .loop target next, calls⟩
      with haside | hcommand | ⟨_, hfires⟩
    · exact ⟨log, _, hpasses, rfl, h, Or.inl haside⟩
    · obtain ⟨c, after, hdoing, -⟩ := hcommand
      simp at hdoing
    · obtain ⟨m₁, m₂, hstep₁, hstep₂, -, hquiet, htwin, haside⟩ :=
        h.fire (sound_of_reaches hpasses.reaches) (inPlace_of_reaches hpasses.reaches)
          (hidle _ hpasses.reaches) hfires
      refine ⟨_, m₂, (hpasses.step hstep₁).step hstep₂, ?_, htwin, Or.inl haside⟩
      rw [besides_quiet hquiet, besides_self hfires]
  | routine r =>
    induction r generalizing l log with
    | command c next ih =>
      by_cases hc : c.task = task
      · have hcommand : Commands task ⟨l, context₁, .routine (.command c next), calls⟩ :=
          ⟨c, next, rfl, hc⟩
        cases ha : l.apply c with
        | error fault =>
          exact ⟨log, _, hpasses, rfl, h, Or.inr ⟨hcommand, fault, congrArg (Except.map _) ha⟩⟩
        | ok l₁ =>
          have hstep : step behave ⟨l, context₁, .routine (.command c next), calls⟩
              = .ok (some ⟨l₁, context₁, .routine next, calls⟩) := congrArg (Except.map _) ha
          obtain ⟨hquiet, htwin⟩ := h.command (sound_of_reaches hpasses.reaches) hcommand hstep
          have hlater := hpasses.step hstep
          rw [besides_quiet hquiet] at hlater
          exact ih _ htwin hlater
      · refine ⟨log, _, hpasses, rfl, h, Or.inl ⟨?_, fun fired hfired => by cases hfired⟩⟩
        rintro ⟨c', next', hdoing, htask⟩
        obtain ⟨rfl, -⟩ := Routine.command.inj (Doing.routine.inj hdoing)
        exact hc htask
    | finish | register | ask | read | write | poll =>
      refine ⟨log, _, hpasses, rfl, h, Or.inl ⟨?_, fun fired hfired => by cases hfired⟩⟩
      rintro ⟨c', next', hdoing, -⟩
      simp at hdoing

/-- Every state of the run without the commands on `task` is at the same point as one of the run
with them, unless that stops at such a command. -/
theorem Passes.light (hblind : ∀ body fired, (behave body fired).Blind task)
    (hhost : host.Blind task) (hidle : Idles behave host context task)
    {log' : List (Handle × Cycles)} {m' : Machine β C}
    (h : Passes (behave.without task) (start (host.without task) context) log' m') :
    ∃ log m, Passes behave (start host context) log m ∧
      ((besides task log = log' ∧ Twin task m m') ∨
        (besides task log <+: log' ∧ m.Stuck behave task)) := by
  induction h with
  | refl => exact ⟨[], _, .refl, Or.inl ⟨rfl, twin_start hhost context⟩⟩
  | @step log' m' m₁' hpasses' hstep' ih =>
    obtain ⟨log, m, hpasses, ⟨hlog, htwin⟩ | ⟨hlog, hstuck⟩⟩ := ih
    · obtain ⟨log₁, m₁, hpasses₁, hlog₁, htwin₁, haside | hstuck⟩ := htwin.settle hidle hpasses
      · obtain ⟨hfiring, hpaired⟩ := htwin₁.paired (sound_of_reaches hpasses₁.reaches)
          (sound_of_reaches hpasses'.reaches) hblind haside
        rw [hstep'] at hpaired
        obtain ⟨m₂, hstep₂, htwin₂⟩ := hpaired.some_right
        refine ⟨_, m₂, hpasses₁.step hstep₂, Or.inl ⟨?_, htwin₂⟩⟩
        rw [besides_aside haside, hlog₁, hlog, hfiring]
      · refine ⟨log₁, m₁, hpasses₁, Or.inr ⟨?_, hstuck⟩⟩
        rw [hlog₁, hlog]
        exact List.prefix_append _ _
    · exact ⟨log, m, hpasses, Or.inr ⟨hlog.trans (List.prefix_append _ _), hstuck⟩⟩

/-! ### What the others see -/

/-- The host, or a task other than `task`, is at work. -/
def Shows (task : Handle) (m : Machine β C) : Prop :=
  (∃ r, m.doing = .routine r) ∧ task ∉ m.running

/-- The second machine is at the same point without `task`, and in all else the two tell the
same. -/
structure Agrees (task : Handle) (m m' : Machine β C) : Prop where
  doing : ∀ r, m.doing = .routine r → m'.doing = .routine (r.without task)
  running : m.running = m'.running
  context : m.context = m'.context
  epoch : m.ledger.epoch = m'.ledger.epoch
  isArmed : ∀ other, other ≠ task → m.ledger.isArmed other = m'.ledger.isArmed other
  remaining : ∀ other, other ≠ task → m.ledger.remaining other = m'.ledger.remaining other

theorem Twin.agrees {m m' : Machine β C} (h : Twin task m m') (hs : m.ledger.Sound)
    (hs' : m'.ledger.Sound) (hshows : m.Shows task) : Agrees task m m' := by
  cases h with
  | loop =>
    obtain ⟨r, hr⟩ := hshows.1
    simp at hr
  | @routine l l' context r calls halike hepoch hr hcalls =>
    refine ⟨?_, ?_, rfl, hepoch, ?_, ?_⟩
    · intro r' hr'
      obtain rfl := Doing.routine.inj hr'
      rfl
    · simp [running, Call.without, Function.comp_def]
    · intro other hne
      rw [← hs.isArmed_view, ← hs'.isArmed_view]
      exact halike.isArmed hne
    · intro other hne
      rw [← hs.remaining_view, ← hs'.remaining_view]
      exact halike.remaining hepoch hne

theorem Twin.shows {m m' : Machine β C} (h : Twin task m m') (hshows : m'.Shows task) :
    m.Shows task := by
  cases h with
  | loop =>
    obtain ⟨r, hr⟩ := hshows.1
    simp at hr
  | @routine l l' context r calls halike hepoch hr hcalls =>
    refine ⟨⟨r, rfl⟩, ?_⟩
    intro hrunning
    obtain ⟨call, hcall, hself⟩ := List.mem_map.mp hrunning
    exact (hcalls call hcall).1 hself

/-- **Unrelated tasks do not disturb each other.**  Let neither the host nor any task look at
`task`, and let `task` do nothing when it fires.  Then every state of the run in which the host or
another task is at work agrees with a state of the run without any command on `task`, with the same
firings of the other tasks before it; both stop with the same fault, if it is not a command on
`task` that breaks the contract.  Conversely the run without those commands has no other states,
unless the run with them stops at such a command.  And a host that comes to its end does so without
those commands too, with the same result. -/
theorem others_undisturbed {behave : Behaviour β C} {host : Routine β C} {task : Handle}
    (hblind : ∀ body fired, (behave body fired).Blind task) (hhost : host.Blind task)
    (context : C) (hidle : Idles behave host context task) :
    (∀ log m, Passes behave (start host context) log m → m.Shows task →
      ∃ m', Passes (behave.without task) (start (host.without task) context) (besides task log) m' ∧
        Agrees task m m' ∧ ∀ fault, m.step behave = .error fault →
          m.Commands task ∨ m'.step (behave.without task) = .error fault) ∧
    (∀ log' m', Passes (behave.without task) (start (host.without task) context) log' m' →
      m'.Shows task → ∃ log m, Passes behave (start host context) log m ∧
        ((besides task log = log' ∧ Agrees task m m') ∨
          (besides task log <+: log' ∧ m.Stuck behave task))) ∧
    ∀ limit body s context', host.run (Scheduler.poll behave limit) {} context
      = .ok (body, s, context') → ∃ s', (∃ enough, ∀ more, enough ≤ more →
        (host.without task).run (Scheduler.poll (behave.without task) more) {} context
          = .ok (body, s', context')) ∧
        s.epoch = s'.epoch ∧ ∀ other, other ≠ task →
          s.isArmed other = s'.isArmed other ∧ s.remaining other = s'.remaining other := by
  have hforth : ∀ log m, Passes behave (start host context) log m → m.Shows task →
      ∃ m', Passes (behave.without task) (start (host.without task) context) (besides task log) m' ∧
        Twin task m m' := by
    intro log m hpasses hshows
    obtain ⟨m', hpasses', htwin | ⟨hrunning, -⟩⟩ := hpasses.shadow hblind hhost hidle
    · exact ⟨m', hpasses', htwin⟩
    · exact absurd hrunning hshows.2
  refine ⟨?_, ?_, ?_⟩
  · intro log m hpasses hshows
    obtain ⟨m', hpasses', htwin⟩ := hforth log m hpasses hshows
    have hs := sound_of_reaches hpasses.reaches
    have hs' := sound_of_reaches hpasses'.reaches
    refine ⟨m', hpasses', htwin.agrees hs hs' hshows, ?_⟩
    intro fault hfault
    rcases aside_or task m with haside | hcommand | ⟨cycle, hfiring⟩
    · obtain ⟨-, hpaired⟩ := htwin.paired hs hs' hblind haside
      rw [hfault] at hpaired
      exact Or.inr hpaired.error_left
    · exact Or.inl hcommand
    · obtain ⟨m₁, -, hstep, -⟩ := htwin.fire hs (inPlace_of_reaches hpasses.reaches)
        (hidle m hpasses.reaches) hfiring
      rw [hfault] at hstep
      simp at hstep
  · intro log' m' hpasses' hshows'
    obtain ⟨log, m, hpasses, ⟨hlog, htwin⟩ | hstuck⟩ := hpasses'.light hblind hhost hidle
    · exact ⟨log, m, hpasses, Or.inl ⟨hlog, htwin.agrees (sound_of_reaches hpasses.reaches)
        (sound_of_reaches hpasses'.reaches) (htwin.shows hshows')⟩⟩
    · exact ⟨log, m, hpasses, Or.inr hstuck⟩
  · intro limit body s context' hrun
    have hfollows := follows_host behave host context limit
    rw [hrun] at hfollows
    obtain ⟨m, hm, l, hs, rfl, rfl⟩ := hfollows
    obtain ⟨log, hpasses⟩ := exists_passes hm
    obtain ⟨m', hpasses', htwin⟩ := hforth log _ hpasses ⟨⟨_, rfl⟩, by simp [running]⟩
    have hs' := sound_of_reaches hpasses'.reaches
    cases htwin with
    | @routine _ l' _ _ _ halike hepoch _ _ =>
      exact ⟨l'.view, run_eq_ok_of_finish hpasses'.reaches rfl rfl, hepoch,
        fun other hne => ⟨halike.isArmed hne, halike.remaining hepoch hne⟩⟩

/-- A busy task notes the cycle, arms the second task and arms itself again; an idle one does
nothing. -/
def pacing : Behaviour Bool (List Cycles) := fun busy task =>
  if busy then
    .ask .epoch fun (now : Cycles) => .update (now :: ·)
      (.command (.arm ⟨1⟩ 4) (.command (.arm task 5) (.finish true)))
  else .finish false

/-- Both fall due on one cycle, the idle one first. -/
def pacingHost : Routine Bool (List Cycles) :=
  .register true fun first => .register false fun second => .command (.arm second 3)
    (.command (.arm first 3) (.poll 10 (.finish true)))

/-- The busy task runs on cycles 3 and 8 and is due in three more, with the idle one and without. -/
theorem others_undisturbed_pacing :
    ∃ s', (∃ enough, ∀ more, enough ≤ more →
      (pacingHost.without ⟨1⟩).run (Scheduler.poll (pacing.without ⟨1⟩) more) {} []
        = .ok (true, s', [8, 3])) ∧
      s'.epoch = 10 ∧ s'.remaining ⟨0⟩ = .ok (some 3) := by
  have hblind : ∀ busy fired, (pacing busy fired).Blind ⟨1⟩ := by
    intro busy fired
    cases busy with
    | true =>
      refine .ask .epoch (fun h => h.elim) fun now => .read fun noted => .write _ ?_
      exact .command _ (.command _ (.finish true))
    | false => exact .finish false
  have hhost : pacingHost.Blind ⟨1⟩ :=
    .register true fun _ => .register false fun _ =>
      .command _ (.command _ (.poll 10 (.finish true)))
  have hidle : Idles pacing pacingHost [] ⟨1⟩ := by
    intro m hm body hbody
    have hfalse := forall_reaches_of_after
      (P := fun m => ∀ body, m.ledger.body? ⟨1⟩ = some body → body = false) (n := 25) rfl
      (by decide) hm
    rw [hfalse body hbody]
    exact ⟨false, rfl⟩
  have hrun : pacingHost.run (Scheduler.poll pacing 9) {} [] = .ok (true, _, [8, 3]) := rfl
  obtain ⟨s', hruns, hepoch, hothers⟩ :=
    (others_undisturbed hblind hhost [] hidle).2.2 9 true _ _ hrun
  exact ⟨s', hruns, hepoch.symm, (hothers ⟨0⟩ (by decide)).2.symm⟩

end Machine

end Cassette.Scheduler
