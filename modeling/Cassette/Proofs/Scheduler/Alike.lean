import Cassette.Proofs.Scheduler.Beside

/-!
# Schedulers that differ in one task

Two schedulers may be alike in all but one task: what the others have pending, and in which order it
fires, is the same, although the turns are not.  A command on that task changes one of the two, and
they stay alike.  A command on another task comes to the same in both, and so do all questions but
those that tell of the task.

## Main definitions

* `Command.plan`, `Change.perform` — what a command is to do, and the doing of it.
* `Paired` — two results that are the same fault, or related.
* `Alike task` — schedulers that differ in `task`, which has nothing pending in the second.
* `Query.Reveals task` — the questions that tell of `task`.

## Main results

* `apply_eq_plan` — a command looks at its task alone, and changes its task alone.
* `Alike.apply_self`, `Alike.fire_self` — what is done to the task.
* `Alike.apply`, `Alike.ask`, `Alike.exists_cons` — what is done to the others.
-/

namespace Cassette.Scheduler

variable {β : Type}

/-! ### What a command comes to -/

/-- The task that a command is about. -/
def Command.task : Command → Handle
  | .arm task _ | .rearm task _ | .keepArmed task _ _ | .cancel task => task

/-- What a command does to its task. -/
inductive Change where
  | leave
  | strike
  | set (delay : Cycles)

/-- The agenda after a change to `task`. -/
def Change.perform (task : Handle) (s : Scheduler β) : Change → Scheduler β
  | .leave => s
  | .strike => s.dismiss task
  | .set delay => (s.dismiss task).place task delay

/-- What a command does, by whether its task was issued and by whether it is armed. -/
def Command.plan : Command → Bool → Bool → Except Fault Change
  | .arm task delay, owns, _ =>
    if delay = 0 then .error (.zeroDelay task) else if owns then .ok (.set delay)
    else .error .foreignTask
  | .rearm task delay, owns, _ =>
    if owns then if delay = 0 then .error (.zeroDelay task) else .ok (.set delay)
    else .error .foreignTask
  | .keepArmed task run delay, owns, armed =>
    if owns then
      if run then
        if armed then .ok .leave
        else if delay = 0 then .error (.zeroDelay task)
        else .ok (.set delay)
      else .ok .strike
    else .error .foreignTask
  | .cancel _, owns, _ => if owns then .ok .strike else .error .foreignTask

@[simp] theorem Change.epoch_perform (change : Change) (task : Handle) (s : Scheduler β) :
    (change.perform task s).epoch = s.epoch := by
  cases change <;> rfl

theorem apply_eq_plan (c : Command) (s : Scheduler β) :
    c.apply s = (c.plan (s.Owns c.task) (s.occurrence? c.task).isSome).map
      (Change.perform c.task s) := by
  cases c with
  | arm task delay =>
    rw [Command.apply, arm_eq]
    by_cases hdelay : delay = 0 <;> by_cases howns : s.Owns task <;>
      simp [Command.plan, Command.task, hdelay, howns, Except.map, Change.perform]
  | rearm task delay =>
    rw [Command.apply, rearm_eq]
    by_cases hdelay : delay = 0 <;> by_cases howns : s.Owns task <;>
      simp [Command.plan, Command.task, hdelay, howns, Except.map, Change.perform]
  | keepArmed task run delay =>
    rw [Command.apply, keepArmed_eq]
    by_cases howns : s.Owns task
    · cases run with
      | false => simp [Command.plan, Command.task, howns, Except.map, Change.perform]
      | true =>
        by_cases harmed : (s.occurrence? task).isSome <;> by_cases hdelay : delay = 0 <;>
          simp [Command.plan, Command.task, howns, harmed, hdelay, Except.map, Change.perform]
    · simp [Command.plan, Command.task, howns, Except.map]
  | cancel task =>
    rw [Command.apply, cancel]
    by_cases howns : s.Owns task <;>
      simp [Command.plan, Command.task, howns, Except.map, Change.perform]

/-! ### Paired results -/

/-- Two results are the same fault, or two values that are related. -/
inductive Paired {α α' : Type} (R : α → α' → Prop) : Except Fault α → Except Fault α' → Prop where
  | error (fault : Fault) : Paired R (.error fault) (.error fault)
  | ok {a : α} {a' : α'} (h : R a a') : Paired R (.ok a) (.ok a')

theorem Paired.refl {α : Type} {R : α → α → Prop} (h : ∀ a, R a a) (x : Except Fault α) :
    Paired R x x := by
  cases x with
  | error fault => exact .error fault
  | ok a => exact .ok (h a)

theorem Paired.map {α α' γ γ' : Type} {R : α → α' → Prop} {S : γ → γ' → Prop}
    {x : Except Fault α} {x' : Except Fault α'} (h : Paired R x x') {f : α → γ} {f' : α' → γ'}
    (hf : ∀ a a', R a a' → S (f a) (f' a')) : Paired S (x.map f) (x'.map f') := by
  cases h with
  | error fault => exact .error fault
  | ok h => exact .ok (hf _ _ h)

theorem Paired.of_map {α α' γ γ' : Type} {S : γ → γ' → Prop} {x : Except Fault α}
    {x' : Except Fault α'} {f : α → γ} {f' : α' → γ'} (h : Paired S (x.map f) (x'.map f')) :
    Paired (fun a a' => S (f a) (f' a')) x x' := by
  cases x with
  | error fault =>
    cases x' with
    | error fault' =>
      cases h
      exact .error fault
    | ok a' => cases h
  | ok a =>
    cases x' with
    | error fault' => cases h
    | ok a' =>
      cases h with
      | ok h => exact .ok h

theorem Paired.some_left {α α' : Type} {R : α → α' → Prop} {a : α} {x' : Except Fault (Option α')}
    (h : Paired (Option.Rel R) (.ok (some a)) x') : ∃ a', x' = .ok (some a') ∧ R a a' := by
  cases h with
  | ok h =>
    cases h with
    | some h => exact ⟨_, rfl, h⟩

theorem Paired.some_right {α α' : Type} {R : α → α' → Prop} {x : Except Fault (Option α)} {a' : α'}
    (h : Paired (Option.Rel R) x (.ok (some a'))) : ∃ a, x = .ok (some a) ∧ R a a' := by
  cases h with
  | ok h =>
    cases h with
    | some h => exact ⟨_, rfl, h⟩

theorem Paired.error_left {α α' : Type} {R : α → α' → Prop} {fault : Fault} {x' : Except Fault α'}
    (h : Paired R (.error fault) x') : x' = .error fault := by
  cases h
  rfl

/-! ### Schedulers that differ in one task alone -/

/-- The second scheduler is the first without anything pending for `task`, the turns and the body of
`task` apart. -/
structure Alike (task : Handle) (s s' : Scheduler β) : Prop where
  size : s.bodies.size = s'.bodies.size
  bodies : ∀ i, i ≠ task.index → s.bodies[i]? = s'.bodies[i]?
  beside : s.beside task = s'.beside task
  bare : ∀ e ∈ s'.agenda, e.task ≠ task

namespace Alike

variable {task other : Handle} {s s' : Scheduler β}

theorem owns (h : Alike task s s') : s.Owns other ↔ s'.Owns other := by
  unfold Owns
  rw [h.size]

theorem body? (h : Alike task s s') (hne : other ≠ task) : s.body? other = s'.body? other := by
  unfold Scheduler.body?
  rw [h.bodies other.index fun heq => hne (Handle.eq_of_index heq)]

theorem occurrence? (h : Alike task s s') (hne : other ≠ task) :
    (s.occurrence? other).map Entry.unturned = (s'.occurrence? other).map Entry.unturned := by
  rw [← find?_beside s hne, ← find?_beside s' hne, h.beside]

theorem isSome_occurrence? (h : Alike task s s') (hne : other ≠ task) :
    (s.occurrence? other).isSome = (s'.occurrence? other).isSome := by
  have hsome := congrArg Option.isSome (h.occurrence? hne)
  rwa [Option.isSome_map, Option.isSome_map] at hsome

/-! What is done to the task itself is done to the first scheduler alone. -/

theorem dismiss_self (h : Alike task s s') : Alike task (s.dismiss task) s' :=
  ⟨h.size, h.bodies, (s.beside_dismiss_self task).trans h.beside, h.bare⟩

theorem place_self (h : Alike task s s') (delay : Cycles) : Alike task (s.place task delay) s' :=
  ⟨h.size, h.bodies, (s.beside_place_self task delay).trans h.beside, h.bare⟩

theorem perform_self (h : Alike task s s') (change : Change) :
    Alike task (change.perform task s) s' := by
  cases change with
  | leave => exact h
  | strike => exact h.dismiss_self
  | set delay => exact h.dismiss_self.place_self delay

theorem apply_self (h : Alike task s s') {c : Command} (hc : c.task = task) {s₁ : Scheduler β}
    (ha : c.apply s = .ok s₁) : Alike task s₁ s' := by
  rw [apply_eq_plan, hc] at ha
  obtain ⟨change, -, rfl⟩ := map_ok ha
  exact h.perform_self change

/-- A firing in which the task does nothing. -/
theorem fire_self (h : Alike task s s') {e : Entry} {rest : List Entry}
    (hs : s.agenda = e :: rest) (he : e.task = task) (body : β) :
    Alike task ((s.takeOut e).putBack task body) s' where
  size := by
    change ((s.bodies.setIfInBounds _ _).setIfInBounds _ _).size = _
    rw [Array.size_setIfInBounds, Array.size_setIfInBounds, h.size]
  bodies i hi := by
    change ((s.bodies.setIfInBounds _ _).setIfInBounds _ _)[i]? = _
    rw [he, Array.getElem?_setIfInBounds_ne hi.symm, Array.getElem?_setIfInBounds_ne hi.symm,
      h.bodies i hi]
  beside := by
    rw [← h.beside, beside_cons hs, if_pos he]
    rfl
  bare := h.bare

/-! What is done to another task, or to all of them, is done to both. -/

theorem dismiss (h : Alike task s s') (other : Handle) :
    Alike task (s.dismiss other) (s'.dismiss other) where
  size := h.size
  bodies := h.bodies
  beside := by rw [beside_dismiss, beside_dismiss, h.beside]
  bare e he := h.bare e (mem_agenda_dismiss.mp he).1

theorem place (h : Alike task s s') (ho : s.Orderly) (ho' : s'.Orderly)
    (hepoch : s.epoch = s'.epoch) (hne : other ≠ task) (delay : Cycles) :
    Alike task (s.place other delay) (s'.place other delay) where
  size := h.size
  bodies := h.bodies
  beside := by rw [ho.beside_place hne, ho'.beside_place hne, hepoch, h.beside]
  bare e he := by
    rcases mem_enter.mp he with rfl | he
    · exact hne
    · exact h.bare e he

theorem perform (h : Alike task s s') (ho : s.Orderly) (ho' : s'.Orderly)
    (hepoch : s.epoch = s'.epoch) (hne : other ≠ task) (change : Change) :
    Alike task (change.perform other s) (change.perform other s') := by
  cases change with
  | leave => exact h
  | strike => exact h.dismiss other
  | set delay =>
    exact (h.dismiss other).place (ho.dismiss other) (ho'.dismiss other) hepoch hne delay

theorem apply (h : Alike task s s') (ho : s.Orderly) (ho' : s'.Orderly)
    (hepoch : s.epoch = s'.epoch) {c : Command} (hc : c.task ≠ task) :
    Paired (fun s₁ s₁' => Alike task s₁ s₁' ∧ s₁.epoch = s₁'.epoch) (c.apply s) (c.apply s') := by
  have howns : decide (s.Owns c.task) = decide (s'.Owns c.task) := by simp only [h.owns]
  rw [apply_eq_plan, apply_eq_plan, howns, h.isSome_occurrence? hc]
  cases c.plan (s'.Owns c.task) (s'.occurrence? c.task).isSome with
  | error fault => exact .error fault
  | ok change => exact .ok ⟨h.perform ho ho' hepoch hc change, by simp [hepoch]⟩

theorem register (h : Alike task s s') (body : β) :
    (s.register body).1 = (s'.register body).1 ∧
      Alike task (s.register body).2 (s'.register body).2 := by
  refine ⟨congrArg Handle.mk h.size, ?_, ?_, h.beside, h.bare⟩
  · simp [Scheduler.register, h.size]
  · intro i hi
    simp only [Scheduler.register, Array.getElem?_push, h.size, h.bodies i hi]

theorem putBack (h : Alike task s s') (other : Handle) (body : β) :
    Alike task (s.putBack other body) (s'.putBack other body) where
  size := by simp [Scheduler.putBack, h.size]
  bodies i hi := by
    simp only [Scheduler.putBack, Array.getElem?_setIfInBounds, h.size, h.bodies i hi]
  beside := h.beside
  bare := h.bare

theorem setEpoch (h : Alike task s s') (epoch : Cycles) :
    Alike task { s with epoch } { s' with epoch } :=
  ⟨h.size, h.bodies, h.beside, h.bare⟩

/-- The entry of another task stands first in both. -/
theorem exists_cons (h : Alike task s s') {e : Entry} {rest : List Entry}
    (hs : s.agenda = e :: rest) (he : e.task ≠ task) :
    ∃ e' rest', s'.agenda = e' :: rest' ∧ e'.task = e.task ∧ e'.due = e.due ∧
      Alike task (s.takeOut e) (s'.takeOut e') := by
  have hbeside := h.beside
  rw [beside_cons hs, if_neg he] at hbeside
  cases hs' : s'.agenda with
  | nil => simp [Scheduler.beside, hs'] at hbeside
  | cons e' rest' =>
    have he' : e'.task ≠ task := h.bare e' (by rw [hs']; exact List.mem_cons_self)
    rw [beside_cons hs', if_neg he'] at hbeside
    obtain ⟨hhead, htail⟩ := List.cons.inj hbeside
    have htask : e'.task = e.task := by simpa using congrArg Entry.task hhead.symm
    have hdue : e'.due = e.due := by simpa using congrArg Entry.due hhead.symm
    refine ⟨e', rest', rfl, htask, hdue, ?_, ?_, htail, ?_⟩
    · simp [takeOut, h.size]
    · intro i hi
      simp only [takeOut, Array.getElem?_setIfInBounds, h.size, h.bodies i hi, htask]
    · intro f hf
      exact h.bare f (List.mem_of_mem_tail hf)

/-- What is pending in the second scheduler is pending in the first. -/
theorem exists_mem (h : Alike task s s') {e' : Entry} (he' : e' ∈ s'.agenda) :
    ∃ e ∈ s.agenda, e.due = e'.due := by
  have hmem : e'.unturned ∈ s.beside task := by
    rw [h.beside]
    exact List.mem_map_of_mem (List.mem_filter.mpr ⟨he', by simpa using h.bare e' he'⟩)
  obtain ⟨e, he, heq⟩ := List.mem_map.mp hmem
  exact ⟨e, (List.mem_filter.mp he).1, by simpa using congrArg Entry.due heq⟩

end Alike

/-! ### Questions -/

/-- The answer may depend on what is done to `task`. -/
def Query.Reveals (task : Handle) : Query → Prop
  | .epoch => False
  | .pending | .headroom => True
  | .isArmed other | .remaining other => other = task

theorem Alike.isArmed {task other : Handle} {s s' : Scheduler β} (h : Alike task s s')
    (hne : other ≠ task) : s.isArmed other = s'.isArmed other := by
  unfold Scheduler.isArmed
  simp only [h.owns, h.isSome_occurrence? hne]

theorem Alike.remaining {task other : Handle} {s s' : Scheduler β} (h : Alike task s s')
    (hepoch : s.epoch = s'.epoch) (hne : other ≠ task) :
    s.remaining other = s'.remaining other := by
  have hwait := congrArg (Option.map fun e => e.due - s.epoch) (h.occurrence? hne)
  rw [Option.map_map, Option.map_map] at hwait
  have hwait : (s.occurrence? other).map (fun e => e.due - s.epoch)
      = (s'.occurrence? other).map fun e => e.due - s'.epoch := by
    rw [← hepoch]
    exact hwait
  unfold Scheduler.remaining
  simp only [h.owns, hwait]

/-- The answers are the same, or tell of `task`. -/
theorem Alike.ask {task : Handle} {s s' : Scheduler β} (h : Alike task s s')
    (hepoch : s.epoch = s'.epoch) (q : Query) :
    Paired (fun a a' => q.Reveals task ∨ a = a') (q.ask s) (q.ask s') := by
  cases q with
  | epoch => exact .ok (Or.inr hepoch)
  | pending | headroom => exact .ok (Or.inl trivial)
  | isArmed other =>
    by_cases heq : other = task
    · simp only [Query.ask, Scheduler.isArmed, h.owns]
      split
      · exact .ok (Or.inl heq)
      · exact .error _
    · rw [Query.ask, Query.ask, h.isArmed heq]
      refine .refl ?_ _
      intro answer
      exact Or.inr rfl
  | remaining other =>
    by_cases heq : other = task
    · simp only [Query.ask, Scheduler.remaining, h.owns]
      split
      · exact .ok (Or.inl heq)
      · exact .error _
    · rw [Query.ask, Query.ask, h.remaining hepoch heq]
      refine .refl ?_ _
      intro answer
      exact Or.inr rfl

end Cassette.Scheduler
