import Cassette.Proofs.Scheduler.Refinement

/-!
# Transcripts

A transcript lists what can be noticed of a run, newest first: every firing and every command
with the cycle that the clock showed, every answer and every advance of the clock.  A routine
that is recorded does what it did before, and writes down what happens beside its context.
From a transcript alone one can tell which occurrences are armed, and whether the tasks fired
when they were due.

## Main definitions

* `Observation`, `Transcript` — what can be noticed.
* `Routine.recorded`, `recordedBehaviour` — the same routines, with a transcript.
* `due?` — the cycle for which a transcript leaves a task armed.
* `Punctual` — every firing is of an armed task on its due cycle, and none is left out.
* `Fate` — an occurrence waits, fires on its due cycle, or is disturbed before that.

## Main results

* `run_recorded`, `advance_recorded` — recording changes nothing.
* `fate_of_punctual` — in a punctual transcript every occurrence meets its fate.
-/

namespace Cassette.Scheduler

variable {β C : Type}

/-- What can be noticed of a run. -/
inductive Observation where
  /-- The task fired, and the clock showed `now`. -/
  | fired (task : Handle) (now : Cycles)
  | commanded (c : Command) (now : Cycles)
  | registered (task : Handle)
  | told (q : Query) (answer : q.Answer)
  /-- The clock is to be advanced to `target`. -/
  | polling (target : Cycles)
  | polled (now : Cycles)

/-- What was noticed of a run, newest first. -/
abbrev Transcript := List Observation

/-! ### Recording -/

namespace Routine

/-- Write an observation down. -/
def note (o : Observation) (next : Routine β (C × Transcript)) : Routine β (C × Transcript) :=
  .update (fun x => (x.1, o :: x.2)) next

/-- The routine, with everything written down that happens. -/
def recorded : Routine β C → Routine β (C × Transcript)
  | .finish body => .finish body
  | .command c next => .command c (.ask .epoch fun now => .note (.commanded c now) next.recorded)
  | .register body next => .register body fun task => .note (.registered task) (next task).recorded
  | .ask q next => .ask q fun answer => .note (.told q answer) (next answer).recorded
  | .read next => .read fun x => (next x.1).recorded
  | .write context next => .update (fun x => (context, x.2)) next.recorded
  | .poll cycles next =>
    .ask .epoch fun (now : Cycles) => .note (.polling (now + cycles))
      (.poll cycles (.ask .epoch fun now => .note (.polled now) next.recorded))

end Routine

/-- The tasks, with every firing and all that they do written down. -/
def recordedBehaviour (behave : Behaviour β C) : Behaviour β (C × Transcript) := fun body task =>
  .ask .epoch fun now => .note (.fired task now) (behave body task).recorded

theorem Routine.PollFree.recorded {r : Routine β C} (h : r.PollFree) : r.recorded.PollFree := by
  induction h with
  | finish body => exact .finish body
  | command c _ ih => exact .command c (.ask .epoch fun _ => .read fun _ => .write _ ih)
  | register body _ ih => exact .register body fun task => .read fun _ => .write _ (ih task)
  | ask q _ ih => exact .ask q fun answer => .read fun _ => .write _ (ih answer)
  | read _ ih => exact .read fun x => ih x.1
  | write context _ ih => exact .read fun _ => .write _ ih

theorem NeverPoll.recorded {behave : Behaviour β C} (hb : NeverPoll behave) :
    NeverPoll (recordedBehaviour behave) :=
  fun body task => .ask .epoch fun _ => .read fun _ => .write _ (hb body task).recorded

/-! ### Running what is recorded -/

section

variable {poll : Cycles → Scheduler β → C × Transcript →
  Except (Fault × C × Transcript) (Scheduler β × C × Transcript)} {s : Scheduler β} {context : C}
  {log : Transcript}

theorem run_recorded_command (c : Command) (next : Routine β C) :
    (Routine.command c next).recorded.run poll s (context, log)
      = match c.apply s with
        | .ok s => next.recorded.run poll s (context, .commanded c s.epoch :: log)
        | .error fault => .error (fault, context, log) := rfl

theorem run_recorded_register (body : β) (next : Handle → Routine β C) :
    (Routine.register body next).recorded.run poll s (context, log)
      = (next (s.register body).1).recorded.run poll (s.register body).2
          (context, .registered (s.register body).1 :: log) := rfl

theorem run_recorded_ask (q : Query) (next : q.Answer → Routine β C) :
    (Routine.ask q next).recorded.run poll s (context, log)
      = match q.ask s with
        | .ok answer => (next answer).recorded.run poll s (context, .told q answer :: log)
        | .error fault => .error (fault, context, log) := by
  rw [Routine.recorded, Routine.run]
  cases q.ask s <;> rfl

theorem run_recorded_poll (cycles : Cycles) (next : Routine β C) :
    (Routine.poll cycles next).recorded.run poll s (context, log)
      = match poll cycles s (context, .polling (s.epoch + cycles) :: log) with
        | .ok (s, context, log) =>
          next.recorded.run poll s (context, .polled s.epoch :: log)
        | .error stop => .error stop := by
  change (Routine.poll cycles (.ask .epoch fun now => .note (.polled now) next.recorded)).run poll s
    (context, .polling (s.epoch + cycles) :: log) = _
  rw [Routine.run]
  cases poll cycles s (context, .polling (s.epoch + cycles) :: log) <;> rfl

theorem run_recordedBehaviour (behave : Behaviour β C) (body : β) (task : Handle) :
    (recordedBehaviour behave body task).run poll s (context, log)
      = (behave body task).recorded.run poll s (context, .fired task s.epoch :: log) := rfl

end

/-! ### Recording changes nothing -/

/-- A run without its transcript, where `f` drops the transcript of a result. -/
def unrecorded {α γ : Type} (f : α → γ) :
    Except (Fault × C × Transcript) α → Except (Fault × C) γ
  | .ok a => .ok (f a)
  | .error (fault, context, _) => .error (fault, context)

/-- The end of an advance without its transcript. -/
def dropLog (x : Scheduler β × C × Transcript) : Scheduler β × C := (x.1, x.2.1)

theorem run_recorded {poll : Cycles → Scheduler β → C → Except (Fault × C) (Scheduler β × C)}
    {poll' : Cycles → Scheduler β → C × Transcript →
      Except (Fault × C × Transcript) (Scheduler β × C × Transcript)}
    (hpoll : ∀ cycles s context log,
      unrecorded dropLog (poll' cycles s (context, log)) = poll cycles s context)
    (r : Routine β C) (s : Scheduler β) (context : C) (log : Transcript) :
    unrecorded (Prod.map id dropLog) (r.recorded.run poll' s (context, log))
      = r.run poll s context := by
  induction r generalizing s context log with
  | finish body => rfl
  | command c next ih =>
    rw [run_recorded_command, Routine.run]
    cases c.apply s with
    | ok s => exact ih s context _
    | error fault => rfl
  | register body next ih => exact ih _ _ context _
  | ask q next ih =>
    rw [run_recorded_ask, Routine.run]
    cases q.ask s with
    | ok answer => exact ih answer s context _
    | error fault => rfl
  | read next ih => exact ih context s context log
  | write written next ih => exact ih s written log
  | poll cycles next ih =>
    rw [run_recorded_poll, Routine.run,
      ← hpoll cycles s context (.polling (s.epoch + cycles) :: log)]
    cases poll' cycles s (context, .polling (s.epoch + cycles) :: log) with
    | ok out => exact ih out.1 out.2.1 _
    | error stop => rfl

theorem advance_recorded (behave : Behaviour β C) (limit : Nat) (target : Cycles)
    (s : Scheduler β) (context : C) (log : Transcript) :
    unrecorded dropLog (advance (recordedBehaviour behave) limit target s (context, log))
      = advance behave limit target s context := by
  induction limit generalizing target s context log with
  | zero => rfl
  | succ limit ih =>
    unfold advance
    split
    · rfl
    · next e rest hs =>
      split
      · rfl
      · split
        · rfl
        · next body hbody =>
          simp only [run_recordedBehaviour]
          rw [← run_recorded (fun cycles s context log => ih (s.epoch + cycles) s context log)
            (behave body e.task) (s.takeOut e) context (.fired e.task (s.takeOut e).epoch :: log)]
          generalize (behave body e.task).recorded.run _ (s.takeOut e) _ = x
          cases x with
          | error stop => rfl
          | ok out => exact ih target _ _ _

theorem poll_recorded (behave : Behaviour β C) (limit : Nat) (cycles : Cycles) (s : Scheduler β)
    (context : C) (log : Transcript) :
    unrecorded dropLog (poll (recordedBehaviour behave) limit cycles s (context, log))
      = poll behave limit cycles s context :=
  advance_recorded behave limit (s.epoch + cycles) s context log

/-! ### What a transcript tells -/

/-- The cycle for which a transcript leaves `task` armed. -/
def due? : Transcript → Handle → Option Cycles
  | [], _ => none
  | .fired other _ :: log, task => if other = task then none else due? log task
  | .commanded (.arm other delay) now :: log, task
  | .commanded (.rearm other delay) now :: log, task =>
    if other = task then some (now + delay) else due? log task
  | .commanded (.keepArmed other true delay) now :: log, task =>
    if other = task then some ((due? log task).getD (now + delay)) else due? log task
  | .commanded (.keepArmed other false _) _ :: log, task
  | .commanded (.cancel other) _ :: log, task => if other = task then none else due? log task
  | _ :: log, task => due? log task

/-- Every firing is of an armed task on its due cycle, and whenever the clock has been
advanced, all that remains armed is for later. -/
def Punctual : Transcript → Prop
  | [] => True
  | .fired task now :: log => due? log task = some now ∧ Punctual log
  | .polled now :: log =>
    (∀ task due, due? log task = some due → now.count < due.count) ∧ Punctual log
  | _ :: log => Punctual log

/-- The command cancels or replaces the occurrence of `task`. -/
def Command.Disturbs (task : Handle) : Command → Prop
  | .arm other _ | .rearm other _ | .cancel other | .keepArmed other false _ => other = task
  | .keepArmed _ true _ => False

/-- The observation leaves an occurrence of `task` for the cycle `due` waiting. -/
def Quiet (task : Handle) (due : Cycles) : Observation → Prop
  | .fired other _ => other ≠ task
  | .commanded c _ => ¬ c.Disturbs task
  | .polled now => now.count < due.count
  | _ => True

/-- What becomes of an occurrence of `task` for the cycle `due`: it waits, or what first ends
its waiting is its firing on that cycle or a command that cancels or replaces it. -/
def Fate (task : Handle) (due : Cycles) (after : Transcript) : Prop :=
  (∀ o ∈ after, Quiet task due o) ∨
    ∃ newer o older, after = newer ++ o :: older ∧ (∀ o ∈ older, Quiet task due o) ∧
      (o = .fired task due ∨ ∃ c now, o = .commanded c now ∧ c.Disturbs task)

theorem Punctual.tail {o : Observation} {log : Transcript} (h : Punctual (o :: log)) :
    Punctual log := by
  cases o with
  | fired | polled => exact h.2
  | commanded | registered | told | polling => exact h

theorem due?_of_quiet {o : Observation} {log : Transcript} {task : Handle} {due : Cycles}
    (hdue : due? log task = some due) (h : Quiet task due o) :
    due? (o :: log) task = some due := by
  cases o with
  | fired other now =>
    have hne : other ≠ task := h
    rw [due?, if_neg hne, hdue]
  | commanded c now =>
    cases c with
    | arm other delay | rearm other delay | cancel other =>
      have hne : ¬ other = task := h
      rw [due?, if_neg hne, hdue]
    | keepArmed other run delay =>
      cases run with
      | true =>
        rw [due?, hdue]
        split <;> rfl
      | false =>
        have hne : ¬ other = task := h
        rw [due?, if_neg hne, hdue]
  | registered | told | polling | polled => exact hdue

/-- As long as all is quiet the occurrence stays armed. -/
theorem due?_append {after log : Transcript} {task : Handle} {due : Cycles}
    (hdue : due? log task = some due) (h : ∀ o ∈ after, Quiet task due o) :
    due? (after ++ log) task = some due := by
  induction after with
  | nil => exact hdue
  | cons o after ih =>
    have harmed := ih fun o ho => h o (List.mem_cons_of_mem _ ho)
    exact due?_of_quiet harmed (h o List.mem_cons_self)

/-- In a punctual transcript every occurrence meets its fate. -/
theorem fate_of_punctual {task : Handle} {due : Cycles} {after log : Transcript}
    (h : Punctual (after ++ log)) (hdue : due? log task = some due) : Fate task due after := by
  induction after with
  | nil => exact Or.inl fun o ho => by simp at ho
  | cons o after ih =>
    rcases ih h.tail with hquiet | ⟨newer, o', older, rfl, hquiet, ho'⟩
    · -- still waiting: what comes next is either quiet too, or the end of the waiting
      have harmed := due?_append hdue hquiet
      by_cases ho : Quiet task due o
      · left
        intro o' ho'
        rcases List.mem_cons.mp ho' with rfl | ho'
        · exact ho
        · exact hquiet o' ho'
      · refine Or.inr ⟨[], o, after, rfl, hquiet, ?_⟩
        cases o with
        | fired other now =>
          have heq : other = task := Decidable.of_not_not ho
          subst heq
          have hnow : due? (after ++ log) other = some now := h.1
          rw [harmed] at hnow
          rw [Option.some.inj hnow]
          exact Or.inl rfl
        | commanded c now => exact Or.inr ⟨c, now, rfl, Classical.not_not.mp ho⟩
        | polled now => exact absurd (h.1 task due harmed) ho
        | registered | told | polling => exact absurd trivial ho
    · exact Or.inr ⟨o :: newer, o', older, rfl, hquiet, ho'⟩

end Cassette.Scheduler
