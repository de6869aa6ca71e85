import Cassette.Proofs.Scheduler.Limit
import Cassette.Proofs.Scheduler.Nesting

/-!
# The contract of the scheduler

A request can break the scheduler's contract in three ways: it arms a task for the current cycle, it
names a task that the scheduler did not issue, or a poll comes to a task that is itself running.
Which check comes first differs from request to request.  Here the ways are listed one by one, and a
run of a host and its tasks stops with a fault exactly in a state that is on the list.

For the third way one has to know which tasks are running, and the scheduler knows only which bodies
are out of their slots.  The two are the same at any depth of nested polls.

## Main definitions

* `Ledger.Misses` — a slot without its body.
* `Command.Breaks`, `Query.Breaks`, `Machine.Breaks` — the list of what breaks the contract.
* `Request` — a request that leaves a ledger behind even if it is refused.
* `Machine.running`, `Machine.InPlace` — the tasks on the stack of polls, and the bodies in place.
* `Machine.Unnested` — no running task asks for a poll.

## Main results

* `apply_eq_error_iff`, `ask_eq_error_iff` — the lists of commands and questions are complete.
* `Request.outcome_command` — what a command that is refused leaves behind.
* `inPlace_of_reaches` — a body is out of its slot exactly while its task is on the stack.
* `step_eq_error_iff` — the list of states is complete.
* `faults_iff_breaks` — **a run stops with a fault exactly where it breaks the contract.**
-/

namespace Cassette.Scheduler

variable {β C : Type}

/-! ### Bodies out of their places -/

/-- The task was issued, and its body is out of its place. -/
def Misses (s : Scheduler β) (task : Handle) : Prop := s.bodies[task.index]? = some none

theorem misses_iff {s : Scheduler β} {task : Handle} :
    s.Misses task ↔ s.Owns task ∧ s.body? task = none := by
  unfold Misses body? Owns
  rw [Array.getElem?_eq_some_iff]
  constructor
  · rintro ⟨hlt, hnone⟩
    refine ⟨hlt, ?_⟩
    rw [Array.getElem?_eq_getElem hlt, hnone]
    rfl
  · rintro ⟨hlt, hnone⟩
    rw [Array.getElem?_eq_getElem hlt] at hnone
    exact ⟨hlt, hnone⟩

theorem misses_of_apply {c : Command} {s s' : Scheduler β} (h : c.apply s = .ok s')
    {task : Handle} : s'.Misses task ↔ s.Misses task := by
  unfold Misses
  rw [bodies_of_apply h]

theorem misses_register {s : Scheduler β} {body : β} {task : Handle} :
    (s.register body).2.Misses task ↔ s.Misses task := by
  change (s.bodies.push (some body))[task.index]? = some none ↔ s.bodies[task.index]? = some none
  rw [Array.getElem?_push]
  split
  · next h => simp [h]
  · rfl

theorem misses_takeOut {s : Scheduler β} {e : Entry} (howns : s.Owns e.task) {task : Handle} :
    (s.takeOut e).Misses task ↔ task = e.task ∨ s.Misses task := by
  change (s.bodies.setIfInBounds e.task.index none)[task.index]? = some none ↔ _
  rw [Array.getElem?_setIfInBounds]
  split
  · next h =>
    have hlt : e.task.index < s.bodies.size := howns
    simp [hlt, (Handle.eq_of_index h).symm]
  · next h =>
    have hne : task ≠ e.task := fun heq => h (congrArg Handle.index heq.symm)
    simp [hne, Misses]

theorem misses_putBack {s : Scheduler β} {done task : Handle} {body : β} :
    (s.putBack done body).Misses task ↔ task ≠ done ∧ s.Misses task := by
  change (s.bodies.setIfInBounds done.index (some body))[task.index]? = some none ↔ _
  rw [Array.getElem?_setIfInBounds]
  split
  · next h =>
    obtain rfl := Handle.eq_of_index h
    split <;> simp
  · next h =>
    have hne : task ≠ done := fun heq => h (congrArg Handle.index heq.symm)
    simp [hne, Misses]

namespace Ledger

/-- The slot of `task` is there, and its body is out of it. -/
def Misses (l : Ledger β) (task : Handle) : Prop := l.Owns task ∧ l.body? task = none

theorem misses_view {l : Ledger β} {task : Handle} : l.view.Misses task ↔ l.Misses task := by
  rw [misses_iff, owns_view, body?_view]
  rfl

/-- The occurrence that fires next. -/
def Next (l : Ledger β) (e : Entry) : Prop :=
  e ∈ l.pending ∧ ∀ f ∈ l.pending, f ≠ e → e.before f = true

theorem Sound.next_iff {l : Ledger β} (h : l.Sound) {e : Entry} :
    l.Next e ↔ ∃ rest, l.pending = e :: rest := by
  have hsorted : l.pending.Pairwise fun e f => e.before f = true := h.orderly.sorted
  unfold Next
  cases hpending : l.pending with
  | nil => simp
  | cons f rest =>
    rw [hpending, List.pairwise_cons] at hsorted
    constructor
    · rintro ⟨hmem, hleast⟩
      rcases List.mem_cons.mp hmem with rfl | he
      · exact ⟨rest, rfl⟩
      · have hfe := hsorted.1 e he
        have hne : f ≠ e := by
          rintro rfl
          simp [Entry.before_irrefl] at hfe
        have hee := Entry.before_trans (hleast f List.mem_cons_self hne) hfe
        simp [Entry.before_irrefl] at hee
    · rintro ⟨_, heq⟩
      obtain ⟨rfl, rfl⟩ := List.cons.inj heq
      refine ⟨List.mem_cons_self, ?_⟩
      intro g hg hne
      exact hsorted.1 g ((List.mem_cons.mp hg).resolve_left hne)

end Ledger

/-! ### Requests that break the contract -/

/-- The commands that break the contract. -/
inductive Command.Breaks (l : Ledger β) : Command → Fault → Prop where
  /-- `arm` examines the delay before the task. -/
  | arm_zero (task : Handle) : Breaks l (.arm task 0) (.zeroDelay task)
  | arm_foreign {task : Handle} {delay : Cycles} (hdelay : delay ≠ 0) (hforeign : ¬ l.Owns task) :
      Breaks l (.arm task delay) .foreignTask
  /-- `rearm` examines the task before the delay. -/
  | rearm_zero {task : Handle} (howns : l.Owns task) : Breaks l (.rearm task 0) (.zeroDelay task)
  | rearm_foreign {task : Handle} (delay : Cycles) (hforeign : ¬ l.Owns task) :
      Breaks l (.rearm task delay) .foreignTask
  /-- `keepArmed` has a use for the delay only if it should arm an idle task. -/
  | keepArmed_zero {task : Handle} (howns : l.Owns task) (hidle : l.due? task = none) :
      Breaks l (.keepArmed task true 0) (.zeroDelay task)
  | keepArmed_foreign {task : Handle} (run : Bool) (delay : Cycles) (hforeign : ¬ l.Owns task) :
      Breaks l (.keepArmed task run delay) .foreignTask
  | cancel_foreign {task : Handle} (hforeign : ¬ l.Owns task) :
      Breaks l (.cancel task) .foreignTask

/-- The questions that break the contract. -/
inductive Query.Breaks (l : Ledger β) : Query → Fault → Prop where
  | isArmed_foreign {task : Handle} (hforeign : ¬ l.Owns task) :
      Breaks l (.isArmed task) .foreignTask
  | remaining_foreign {task : Handle} (hforeign : ¬ l.Owns task) :
      Breaks l (.remaining task) .foreignTask

namespace Ledger

theorem arm_eq (l : Ledger β) (task : Handle) (delay : Cycles) :
    l.arm task delay
      = if delay = 0 then .error (.zeroDelay task)
        else if l.Owns task then .ok ((l.dismiss task).place task delay)
        else .error .foreignTask := by
  unfold arm cancel
  split
  · rfl
  · split <;> rfl

theorem rearm_eq (l : Ledger β) (task : Handle) (delay : Cycles) :
    l.rearm task delay
      = if l.Owns task then
          if delay = 0 then .error (.zeroDelay task)
          else .ok ((l.dismiss task).place task delay)
        else .error .foreignTask := by
  unfold rearm cancel
  split
  · next howns =>
    change (l.dismiss task).arm task delay = _
    rw [arm_eq, if_pos (owns_dismiss.mpr howns), dismiss_dismiss]
  · rfl

theorem keepArmed_eq (l : Ledger β) (task : Handle) (run : Bool) (delay : Cycles) :
    l.keepArmed task run delay
      = if l.Owns task then
          if run then
            if (l.due? task).isSome then .ok l
            else if delay = 0 then .error (.zeroDelay task)
            else .ok ((l.dismiss task).place task delay)
          else .ok (l.dismiss task)
        else .error .foreignTask := by
  unfold keepArmed isArmed cancel
  by_cases howns : l.Owns task
  · rw [if_pos howns, if_pos howns, if_pos howns]
    cases run with
    | false => rfl
    | true =>
      change (if (l.due? task).isSome then Except.ok l else l.arm task delay) = _
      rw [arm_eq, if_pos howns]
      rfl
  · rw [if_neg howns, if_neg howns, if_neg howns]
    cases run <;> rfl

theorem dismiss_of_foreign {l : Ledger β} {task : Handle} (h : ¬ l.Owns task) :
    l.dismiss task = l := by
  cases hdue : l.due? task with
  | none => rw [dismiss, hdue]
  | some noted => exact absurd (owns_of_due? hdue) h

end Ledger

/-- The list of commands is complete. -/
theorem apply_eq_error_iff {l : Ledger β} {c : Command} {fault : Fault} :
    l.apply c = .error fault ↔ c.Breaks l fault := by
  constructor
  · intro h
    cases c with
    | arm task delay =>
      rw [Ledger.apply, Ledger.arm_eq] at h
      split at h
      · next hdelay =>
        obtain rfl := Except.error.inj h
        rw [hdelay]
        exact .arm_zero task
      · next hdelay =>
        split at h
        · simp at h
        · next hforeign =>
          obtain rfl := Except.error.inj h
          exact .arm_foreign hdelay hforeign
    | rearm task delay =>
      rw [Ledger.apply, Ledger.rearm_eq] at h
      split at h
      · next howns =>
        split at h
        · next hdelay =>
          obtain rfl := Except.error.inj h
          rw [hdelay]
          exact .rearm_zero howns
        · simp at h
      · next hforeign =>
        obtain rfl := Except.error.inj h
        exact .rearm_foreign delay hforeign
    | keepArmed task run delay =>
      rw [Ledger.apply, Ledger.keepArmed_eq] at h
      by_cases howns : l.Owns task
      · rw [if_pos howns] at h
        -- a task that is armed already, or is to be cancelled, needs no delay
        cases run with
        | false => simp at h
        | true =>
          by_cases hidle : l.due? task = none
          · by_cases hdelay : delay = 0
            · obtain rfl : Fault.zeroDelay task = fault := by simpa [hidle, hdelay] using h
              rw [hdelay]
              exact .keepArmed_zero howns hidle
            · simp [hidle, hdelay] at h
          · simp [Option.isSome_iff_ne_none.mpr hidle] at h
      · rw [if_neg howns] at h
        obtain rfl := Except.error.inj h
        exact .keepArmed_foreign run delay howns
    | cancel task =>
      rw [Ledger.apply, Ledger.cancel] at h
      split at h
      · simp at h
      · next hforeign =>
        obtain rfl := Except.error.inj h
        exact .cancel_foreign hforeign
  · intro h
    cases h with
    | arm_zero task => simp [Ledger.apply, Ledger.arm_eq]
    | arm_foreign hdelay hforeign => simp [Ledger.apply, Ledger.arm_eq, hdelay, hforeign]
    | rearm_zero howns => simp [Ledger.apply, Ledger.rearm_eq, howns]
    | rearm_foreign delay hforeign => simp [Ledger.apply, Ledger.rearm_eq, hforeign]
    | keepArmed_zero howns hidle => simp [Ledger.apply, Ledger.keepArmed_eq, howns, hidle]
    | keepArmed_foreign run delay hforeign => simp [Ledger.apply, Ledger.keepArmed_eq, hforeign]
    | cancel_foreign hforeign => simp [Ledger.apply, Ledger.cancel, hforeign]

/-- The list of questions is complete. -/
theorem ask_eq_error_iff {l : Ledger β} {q : Query} {fault : Fault} :
    l.ask q = .error fault ↔ q.Breaks l fault := by
  constructor
  · intro h
    cases q with
    | epoch | pending | headroom => simp [Ledger.ask] at h
    | isArmed task =>
      simp only [Ledger.ask, Ledger.isArmed] at h
      split at h
      · simp at h
      · next hforeign =>
        obtain rfl := Except.error.inj h
        exact .isArmed_foreign hforeign
    | remaining task =>
      simp only [Ledger.ask, Ledger.remaining] at h
      split at h
      · simp at h
      · next hforeign =>
        obtain rfl := Except.error.inj h
        exact .remaining_foreign hforeign
  · intro h
    cases h with
    | isArmed_foreign hforeign => exact if_neg hforeign
    | remaining_foreign hforeign => exact if_neg hforeign

/-! ### What a refused command leaves behind -/

/-- A request as it goes on: it may have changed the ledger by the time a fault stops it. -/
abbrev Request (β α : Type) := ExceptT Fault (StateM (Ledger β)) α

namespace Request

/-- The result of a request, and the ledger that it leaves behind. -/
def outcome {α : Type} (request : Request β α) (l : Ledger β) : Except Fault α × Ledger β :=
  (ExceptT.run request).run l

/-- Look for the slot of `task`. -/
def lookUp (task : Handle) : Request β Unit := do
  unless (← get).Owns task do throw .foreignTask

/-- Take `task` off. -/
def cancel (task : Handle) : Request β Unit := do
  lookUp task
  modify (·.dismiss task)

/-- Arm `task`, or move it. -/
def arm (task : Handle) (delay : Cycles) : Request β Unit := do
  if delay = 0 then throw (.zeroDelay task)
  cancel task
  modify (·.place task delay)

/-- Take `task` off, and arm it afresh. -/
def rearm (task : Handle) (delay : Cycles) : Request β Unit := do
  cancel task
  arm task delay

/-- Arm `task` if it should run and is idle, and take it off if it should not run. -/
def keepArmed (task : Handle) (run : Bool) (delay : Cycles) : Request β Unit := do
  if run then
    lookUp task
    if ((← get).due? task).isNone then arm task delay
  else cancel task

/-- A command, one change after another. -/
def command : Command → Request β Unit
  | .arm task delay => arm task delay
  | .rearm task delay => rearm task delay
  | .keepArmed task run delay => keepArmed task run delay
  | .cancel task => cancel task

/-- What a command leaves behind if it is refused. -/
def residue (l : Ledger β) : Command → Ledger β
  | .rearm task _ => l.dismiss task
  | .arm _ _ | .keepArmed _ _ _ | .cancel _ => l

@[simp] theorem outcome_pure {α : Type} (a : α) (l : Ledger β) :
    (pure a : Request β α).outcome l = (.ok a, l) := rfl

@[simp] theorem outcome_throw {α : Type} (fault : Fault) (l : Ledger β) :
    (throw fault : Request β α).outcome l = (.error fault, l) := rfl

@[simp] theorem outcome_get (l : Ledger β) : (get : Request β _).outcome l = (.ok l, l) := rfl

@[simp] theorem outcome_modify (f : Ledger β → Ledger β) (l : Ledger β) :
    (modify f : Request β Unit).outcome l = (.ok (), f l) := rfl

@[simp] theorem outcome_bind {α γ : Type} (request : Request β α) (next : α → Request β γ)
    (l : Ledger β) :
    (request >>= next).outcome l
      = match request.outcome l with
        | (.ok a, l') => (next a).outcome l'
        | (.error fault, l') => (.error fault, l') := by
  unfold outcome
  rw [ExceptT.run_bind, StateT.run_bind]
  rcases (ExceptT.run request).run l with ⟨_ | _, _⟩ <;> rfl

theorem outcome_lookUp (task : Handle) (l : Ledger β) :
    (lookUp task).outcome l = (if l.Owns task then .ok () else .error .foreignTask, l) := by
  by_cases howns : l.Owns task <;> simp [lookUp, howns]

theorem outcome_cancel (task : Handle) (l : Ledger β) :
    (cancel task).outcome l
      = if l.Owns task then (.ok (), l.dismiss task) else (.error .foreignTask, l) := by
  by_cases howns : l.Owns task <;> simp [cancel, outcome_lookUp, howns]

theorem outcome_arm (task : Handle) (delay : Cycles) (l : Ledger β) :
    (arm task delay).outcome l
      = match l.arm task delay with
        | .ok l' => (.ok (), l')
        | .error fault => (.error fault, l) := by
  rw [Ledger.arm_eq]
  by_cases hdelay : delay = 0
  · simp [arm, hdelay]
  · by_cases howns : l.Owns task <;> simp [arm, outcome_cancel, hdelay, howns]

/-- A command that is granted does what it does to a ledger.  One that is refused has left the
ledger as it was, but for a `rearm`, which has taken the task off by then. -/
theorem outcome_command (c : Command) (l : Ledger β) :
    (command c).outcome l
      = match l.apply c with
        | .ok l' => (.ok (), l')
        | .error fault => (.error fault, residue l c) := by
  cases c with
  | arm task delay => exact outcome_arm task delay l
  | rearm task delay =>
    change (cancel task >>= fun _ => arm task delay).outcome l = _
    rw [outcome_bind, outcome_cancel, Ledger.apply, Ledger.rearm, Ledger.cancel]
    by_cases howns : l.Owns task
    · simp only [howns, if_true, outcome_arm]
      rfl
    · simp only [howns, if_false, residue, Ledger.dismiss_of_foreign howns]
      rfl
  | keepArmed task run delay =>
    change (keepArmed task run delay).outcome l = _
    rw [Ledger.apply, Ledger.keepArmed, Ledger.isArmed]
    cases run with
    | false =>
      simp only [keepArmed, outcome_cancel, Ledger.cancel, Bool.false_eq_true, if_false]
      split <;> rfl
    | true =>
      by_cases howns : l.Owns task
      · cases hdue : l.due? task with
        | some noted =>
          simp [keepArmed, outcome_lookUp, howns, hdue]
          rfl
        | none =>
          simp [keepArmed, outcome_lookUp, outcome_arm, howns, hdue]
          rfl
      · simp [keepArmed, outcome_lookUp, howns]
        rfl
  | cancel task =>
    change (cancel task).outcome l = _
    rw [outcome_cancel, Ledger.apply, Ledger.cancel]
    split <;> rfl

end Request

/-! ### Running tasks -/

namespace Machine

variable {behave : Behaviour β C} {host : Routine β C} {context : C}

/-- The tasks that are running, the innermost first. -/
def running (m : Machine β C) : List Handle := m.calls.map Call.task

/-- A body is out of its slot exactly if its task is running, and no task runs within itself. -/
structure InPlace (m : Machine β C) : Prop where
  nodup : m.running.Nodup
  misses_iff : ∀ task, m.ledger.Misses task ↔ task ∈ m.running

/-- A poll takes out only a body that is in its slot. -/
theorem body?_of_fire {l : Ledger β} {context : C} {target : Cycles} {next : Routine β C}
    {calls : List (Call β C)} {m' : Machine β C} {e : Entry} {rest : List Entry}
    (hstep : step behave ⟨l, context, .loop target next, calls⟩ = .ok (some m'))
    (hpending : l.pending = e :: rest) (hdue : ¬ target < e.due) : l.body? e.task ≠ none := by
  intro hnone
  obtain ⟨m₁, hturn, -⟩ := map_ok hstep
  rw [turn_of_due hpending hdue, hnone] at hturn
  simp at hturn

theorem InPlace.step {m m' : Machine β C} (h : m.InPlace) (hs : m.ledger.Sound)
    (hstep : m.step behave = .ok (some m')) : m'.InPlace := by
  obtain ⟨hnodup, hmisses⟩ := h
  cases move_of_step hstep with
  | @serve l l' _ _ _ _ calls hledger _ =>
    refine ⟨hnodup, ?_⟩
    intro task
    refine Iff.trans ?_ (hmisses task)
    rcases hledger with rfl | ⟨c, ha⟩ | ⟨body, rfl⟩
    · rfl
    · have hview : c.apply l.view = .ok l'.view := by rw [hs.apply_view, ha]; rfl
      rw [← Ledger.misses_view, ← Ledger.misses_view, misses_of_apply hview]
    · rw [← Ledger.misses_view, ← Ledger.misses_view, (l.register_view body).2, misses_register]
  | poll l context cycles next calls => exact ⟨hnodup, hmisses⟩
  | arrive context next calls hidle => exact ⟨hnodup, hmisses⟩
  | @fire l target e rest context next calls body hpending hdue =>
    have he : e ∈ l.pending := by rw [hpending]; exact List.mem_cons_self
    have howns : l.view.Owns e.task := hs.orderly.owned e he
    have hin : e.task ∉ calls.map Call.task := by
      intro hmem
      exact body?_of_fire hstep hpending hdue ((hmisses e.task).mpr hmem).2
    refine ⟨List.nodup_cons.mpr ⟨hin, hnodup⟩, ?_⟩
    intro task
    change (l.takeOut e).Misses task ↔ task ∈ e.task :: calls.map Call.task
    rw [← Ledger.misses_view, l.takeOut_view, misses_takeOut howns, Ledger.misses_view,
      List.mem_cons]
    exact or_congr Iff.rfl (hmisses task)
  | resume l context body call calls =>
    obtain ⟨hnot, hrest⟩ := List.nodup_cons.mp hnodup
    refine ⟨hrest, ?_⟩
    intro task
    have htask : l.Misses task ↔ task = call.task ∨ task ∈ calls.map Call.task :=
      (hmisses task).trans List.mem_cons
    change (l.putBack call.task body).Misses task ↔ task ∈ calls.map Call.task
    rw [← Ledger.misses_view, l.putBack_view, misses_putBack, Ledger.misses_view, htask]
    constructor
    · rintro ⟨hne, rfl | hmem⟩
      · exact absurd rfl hne
      · exact hmem
    · intro hmem
      refine ⟨?_, Or.inr hmem⟩
      rintro rfl
      exact hnot hmem

/-- At any depth of nested polls, the bodies out of their slots are those of the running tasks. -/
theorem inPlace_of_reaches {m : Machine β C} (h : Reaches behave (start host context) m) :
    m.InPlace := by
  induction h with
  | refl => exact ⟨.nil, fun task => by simp [Ledger.Misses, Ledger.Owns, running, start]⟩
  | tail hreaches hstep ih => exact ih.step (sound_of_reaches hreaches) hstep

/-! ### Where a run stops with a fault -/

/-- What breaks the contract in the next step of a run. -/
inductive Breaks (m : Machine β C) : Fault → Prop where
  | command {c : Command} {next : Routine β C} {fault : Fault}
      (hdoing : m.doing = .routine (.command c next)) (h : c.Breaks m.ledger fault) :
      Breaks m fault
  | ask {q : Query} {next : q.Answer → Routine β C} {fault : Fault}
      (hdoing : m.doing = .routine (.ask q next)) (h : q.Breaks m.ledger fault) : Breaks m fault
  /-- The next occurrence is due by the target of the poll, and its task is running. -/
  | poll {target : Cycles} {next : Routine β C} {e : Entry} (hdoing : m.doing = .loop target next)
      (hnext : m.ledger.Next e) (hdue : e.due ≤ target) (hrunning : e.task ∈ m.running) :
      Breaks m .polledInsideTask

theorem step_eq_error_iff {m : Machine β C} (hs : m.ledger.Sound) (hin : m.InPlace)
    {fault : Fault} : m.step behave = .error fault ↔ m.Breaks fault := by
  obtain ⟨l, context, doing, calls⟩ := m
  constructor
  · intro h
    cases doing with
    | routine r =>
      cases r with
      | command c next =>
        have ha : l.apply c = .error fault := map_error_iff.mp h
        exact .command rfl (apply_eq_error_iff.mp ha)
      | ask q next =>
        have ha : l.ask q = .error fault := map_error_iff.mp h
        exact .ask rfl (ask_eq_error_iff.mp ha)
      | finish body => cases calls <;> simp [step] at h
      | register | read | write | poll => simp [step] at h
    | loop target next =>
      replace h : turn behave ⟨l, context, .loop target next, calls⟩ target next = .error fault :=
        map_error_iff.mp h
      by_cases hidle : ∀ e ∈ l.pending.head?, target < e.due
      · rw [turn_of_idle hidle] at h
        simp at h
      · obtain ⟨e, rest, hpending, hdue⟩ := exists_due (s := l.view) hidle
        replace hpending : l.pending = e :: rest := hpending
        have he : e ∈ l.pending := by rw [hpending]; exact List.mem_cons_self
        have howns : l.Owns e.task := Ledger.owns_view.mp (hs.orderly.owned e he)
        rw [turn_of_due hpending hdue] at h
        cases hbody : l.body? e.task with
        | some body => simp [hbody] at h
        | none =>
          rw [hbody] at h
          obtain rfl := Except.error.inj h
          exact .poll rfl (hs.next_iff.mpr ⟨rest, hpending⟩) (Nat.le_of_not_lt hdue)
            ((hin.misses_iff e.task).mp ⟨howns, hbody⟩)
  · intro h
    cases h with
    | command hdoing h =>
      obtain rfl : doing = _ := hdoing
      exact map_error_iff.mpr (apply_eq_error_iff.mpr h)
    | ask hdoing h =>
      obtain rfl : doing = _ := hdoing
      exact map_error_iff.mpr (ask_eq_error_iff.mpr h)
    | @poll target next e hdoing hnext hdue hrunning =>
      obtain rfl : doing = _ := hdoing
      obtain ⟨rest, hpending⟩ := hs.next_iff.mp hnext
      refine map_error_iff.mpr ?_
      rw [turn_of_due hpending (Nat.not_lt.mpr hdue), ((hin.misses_iff e.task).mpr hrunning).2]

/-! ### Runs without nested polls -/

/-- In no state of a run does a running task ask for a poll. -/
def Unnested (behave : Behaviour β C) (host : Routine β C) (context : C) : Prop :=
  ∀ m, Reaches behave (start host context) m → m.calls ≠ [] →
    ∀ cycles next, m.doing ≠ .routine (.poll cycles next)

theorem unnested_of_neverPoll (hb : NeverPoll behave) (host : Routine β C) (context : C) :
    Unnested behave host context := by
  intro m hm hcalls cycles next hpoll
  rcases flat_of_neverPoll hb hm with hnil | ⟨call, r, -, hdoing, hfree⟩
  · exact hcalls hnil
  · obtain rfl := Doing.routine.inj (hdoing.symm.trans hpoll)
    cases hfree

/-- Only the host waits in a poll. -/
def Shallow (m : Machine β C) : Prop :=
  m.calls = [] ∨ ∃ call r, m.calls = [call] ∧ m.doing = .routine r

theorem Shallow.step {m m' : Machine β C} (h : m.Shallow)
    (hno : m.calls ≠ [] → ∀ cycles next, m.doing ≠ .routine (.poll cycles next))
    (hstep : m.step behave = .ok (some m')) : m'.Shallow := by
  rcases h with hnil | ⟨call, r, hcalls, hdoing⟩
  · cases move_of_step hstep with
    | serve | poll | arrive => exact Or.inl hnil
    | fire => exact Or.inr ⟨_, _, congrArg _ hnil, rfl⟩
    | resume => simp at hnil
  · cases move_of_step hstep with
    | serve => exact Or.inr ⟨call, _, hcalls, rfl⟩
    | poll l context cycles next calls =>
      obtain rfl : calls = [call] := hcalls
      exact absurd rfl (hno (List.cons_ne_nil _ _) cycles next)
    | arrive | fire => simp at hdoing
    | resume => exact Or.inl (List.cons.inj hcalls).2

theorem Unnested.shallow (h : Unnested behave host context) {m : Machine β C}
    (hm : Reaches behave (start host context) m) : m.Shallow := by
  induction hm with
  | refl => exact Or.inl rfl
  | tail hreaches hstep ih => exact ih.step (h _ hreaches) hstep

/-- With one poll at a time no task is running when a poll comes to the next occurrence. -/
theorem Unnested.not_polledInsideTask (h : Unnested behave host context) {m : Machine β C}
    (hm : Reaches behave (start host context) m) : ¬ m.Breaks .polledInsideTask := by
  intro hbreaks
  rcases hbreaks with ⟨-, hc⟩ | ⟨-, hq⟩ | ⟨hloop, -, -, hrunning⟩
  · cases hc
  · cases hq
  · rcases h.shallow hm with hnil | ⟨call, r, -, hdoing⟩
    · simp [running, hnil] at hrunning
    · simp [hloop] at hdoing

/-! ### The contract -/

/-- **A run stops with a fault exactly where it breaks the contract.**  In every state, however deep
its polls are nested, the bodies out of their slots are those of the tasks on the stack, and the
next step raises a fault exactly if the state is on the list.  So a host finds every body in its
place whenever it is back from a poll, and a run without nested polls never comes upon a running
task.  The faults of a run of the host are those of its states, and a command that is refused has
left the ledger as it was, but for a `rearm`, which has taken the task off by then. -/
theorem faults_iff_breaks (behave : Behaviour β C) (host : Routine β C) (context : C) :
    (∀ m, Reaches behave (start host context) m →
      m.InPlace ∧ ∀ fault, m.step behave = .error fault ↔ m.Breaks fault) ∧
    (∀ limit body s context', host.run (Scheduler.poll behave limit) {} context
      = .ok (body, s, context') → ∀ task, ¬ s.Misses task) ∧
    (Unnested behave host context → ∀ m, Reaches behave (start host context) m →
      m.step behave ≠ .error .polledInsideTask) ∧
    (∀ limit fault context', fault ≠ .overrun → host.run (Scheduler.poll behave limit) {} context
      = .error (fault, context') →
        ∃ m, Reaches behave (start host context) m ∧ m.context = context' ∧ m.Breaks fault) ∧
    (∀ m fault, Reaches behave (start host context) m → m.Breaks fault →
      ∃ enough, ∀ limit, enough ≤ limit →
        host.run (Scheduler.poll behave limit) {} context = .error (fault, m.context)) ∧
    ∀ (l : Ledger β) (c : Command), (Request.command c).outcome l
      = match l.apply c with
        | .ok l' => (.ok (), l')
        | .error fault => (.error fault, Request.residue l c) := by
  have hiff : ∀ m, Reaches behave (start host context) m →
      ∀ fault, m.step behave = .error fault ↔ m.Breaks fault :=
    fun m hm _ => step_eq_error_iff (sound_of_reaches hm) (inPlace_of_reaches hm)
  refine ⟨fun m hm => ⟨inPlace_of_reaches hm, hiff m hm⟩, ?_, ?_, ?_, ?_, ?_⟩
  · intro limit body s context' hrun task hmisses
    have hfollows := follows_host behave host context limit
    rw [hrun] at hfollows
    obtain ⟨m, hm, l, -, rfl, rfl⟩ := hfollows
    have hrunning := ((inPlace_of_reaches hm).misses_iff task).mp (Ledger.misses_view.mp hmisses)
    simp [running] at hrunning
  · intro hflat m hm hfault
    exact hflat.not_polledInsideTask hm ((hiff m hm _).mp hfault)
  · intro limit fault context' hne hrun
    have hfollows := follows_host behave host context limit
    rw [hrun] at hfollows
    obtain ⟨m, hm, hcontext, hfault⟩ := hfollows hne
    exact ⟨m, hm, hcontext, (hiff m hm fault).mp hfault⟩
  · intro m fault hm hbreaks
    exact run_eq_error_of_step hm ((hiff m hm fault).mpr hbreaks)
  · intro l c
    exact Request.outcome_command c l

/-- Two tasks that poll, of which the second runs inside the first and polls beyond the cycle for
which the first has armed itself again. -/
def strandedHost : Routine Cycles Unit :=
  .register 10 fun first => .register 20 fun second => .command (.arm first 1)
    (.command (.arm second 5) (.poll 8 (.finish 0)))

/-- The poll of the second task comes to the first, which is two polls further out. -/
theorem faults_iff_breaks_stranded :
    ∃ m, Reaches nesting (start strandedHost ()) m ∧ m.running = [⟨1⟩, ⟨0⟩] ∧ m.InPlace ∧
      m.Breaks .polledInsideTask ∧
      ∃ enough, ∀ limit, enough ≤ limit → strandedHost.run (Scheduler.poll nesting limit) {} ()
        = .error (.polledInsideTask, ()) := by
  obtain ⟨hstates, -, -, -, hruns, -⟩ := faults_iff_breaks nesting strandedHost ()
  have hreaches : Reaches nesting (start strandedHost ()) _ := reaches_of_after (n := 11) rfl
  obtain ⟨hin, hiff⟩ := hstates _ hreaches
  have hbreaks := (hiff .polledInsideTask).mp rfl
  exact ⟨_, hreaches, rfl, hin, hbreaks, hruns _ _ hreaches hbreaks⟩

end Machine

end Cassette.Scheduler
