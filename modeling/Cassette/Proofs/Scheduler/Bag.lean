import Cassette.Scheduler.Poll

/-!
# The scheduler as a bag

What a scheduler does, told as simply as it can be: the armed occurrences lie in a bag in no
order at all, at most one of them for a task.  Arming replaces the occurrence of a task,
cancelling removes it, and to advance the clock is to look again and again for the first of
those that are due, to take it out and to run its task.

## Main definitions

* `Bag` — the clock, the occurrences and the bodies of the tasks.
* `Bag.breach?` — the fault of a request that breaks the contract.
* `Bag.command`, `Bag.ask` — the requests.
* `Bag.earliest?` — the first of the occurrences in a bag.
* `Bag.advance`, `Bag.poll` — the passing of time; `Routine.replay`, a routine over a bag.
-/

namespace Cassette.Scheduler

variable {β C : Type}

/-- Tasks with bodies of type `β`, and their armed occurrences. -/
structure Bag (β : Type) where
  epoch : Cycles := 0
  /-- The number of occurrences armed so far. -/
  armings : Nat := 0
  bodies : Array β := #[]
  /-- The armed occurrences, in no order. -/
  armed : List Entry := []

namespace Bag

/-! ### Requests -/

/-- The task was issued by this scheduler. -/
def Owns (r : Bag β) (task : Handle) : Prop := task.index < r.bodies.size

instance (r : Bag β) (task : Handle) : Decidable (r.Owns task) :=
  inferInstanceAs (Decidable (task.index < r.bodies.size))

/-- The armed occurrence of `task`. -/
def occurrence? (r : Bag β) (task : Handle) : Option Entry := r.armed.find? (·.task = task)

/-- The bag without the occurrence of `task`. -/
def without (r : Bag β) (task : Handle) : Bag β :=
  { r with armed := r.armed.filter (·.task ≠ task) }

/-- The bag with an occurrence of `task`, `delay` cycles from now, in place of any other. -/
def replacing (r : Bag β) (task : Handle) (delay : Cycles) : Bag β :=
  { r with
    armings := r.armings + 1
    armed := ⟨r.epoch + delay, r.armings, task⟩ :: (r.without task).armed }

/-- The bag with one task more. -/
def register (r : Bag β) (body : β) : Handle × Bag β :=
  (⟨r.bodies.size⟩, { r with bodies := r.bodies.push body })

/-- The fault of a command that names a task of another scheduler, or that arms one for the
present cycle. -/
def breach? (r : Bag β) : Command → Option Fault
  | .arm task delay =>
    if delay = 0 then some (.zeroDelay task)
    else if r.Owns task then none else some .foreignTask
  | .rearm task delay =>
    if r.Owns task then if delay = 0 then some (.zeroDelay task) else none
    else some .foreignTask
  | .keepArmed task run delay =>
    if r.Owns task then
      if run ∧ r.occurrence? task = none ∧ delay = 0 then some (.zeroDelay task) else none
    else some .foreignTask
  | .cancel task => if r.Owns task then none else some .foreignTask

/-- The effect of a command that keeps the contract. -/
def effect (r : Bag β) : Command → Bag β
  | .arm task delay | .rearm task delay => r.replacing task delay
  | .keepArmed task true delay =>
    if (r.occurrence? task).isSome then r else r.replacing task delay
  | .keepArmed task false _ | .cancel task => r.without task

/-- A command. -/
def command (r : Bag β) (c : Command) : Except Fault (Bag β) :=
  match r.breach? c with
  | some fault => .error fault
  | none => .ok (r.effect c)

/-- The first to fire of the occurrences in a bag: the least due cycle, and of equal ones
the least turn. -/
def earliest? : List Entry → Option Entry
  | [] => none
  | e :: rest =>
    match earliest? rest with
    | none => some e
    | some f => if f.before e then some f else some e

/-- The answer to a question. -/
def ask (r : Bag β) : (q : Query) → Except Fault q.Answer
  | .epoch => .ok r.epoch
  | .pending => .ok r.armed.length
  | .headroom => .ok ((earliest? r.armed).elim maxHeadroom (·.due - r.epoch))
  | .isArmed task =>
    if r.Owns task then .ok (r.occurrence? task).isSome else .error .foreignTask
  | .remaining task =>
    if r.Owns task then .ok ((r.occurrence? task).map (·.due - r.epoch)) else .error .foreignTask

end Bag

/-- The effect of a routine on a bag and its context, where `poll` is the effect of advancing
the clock. -/
def Routine.replay (poll : Cycles → Bag β → C → Except (Fault × C) (Bag β × C)) :
    Routine β C → Bag β → C → Except (Fault × C) (β × Bag β × C)
  | .finish body, r, context => .ok (body, r, context)
  | .command c next, r, context =>
    match r.command c with
    | .ok r => next.replay poll r context
    | .error fault => .error (fault, context)
  | .register body next, r, context =>
    (next (r.register body).1).replay poll (r.register body).2 context
  | .ask q next, r, context =>
    match r.ask q with
    | .ok answer => (next answer).replay poll r context
    | .error fault => .error (fault, context)
  | .read next, r, context => (next context).replay poll r context
  | .write context next, r, _ => next.replay poll r context
  | .poll cycles next, r, context =>
    match poll cycles r context with
    | .ok (r, context) => next.replay poll r context
    | .error stop => .error stop

namespace Bag

/-! ### The passing of time -/

/-- The bag without the occurrence `e`, at the cycle on which it is due. -/
def takeOut (r : Bag β) (e : Entry) : Bag β := { r.without e.task with epoch := e.due }

/-- The task keeps `body` for its next firing. -/
def keep (r : Bag β) (task : Handle) (body : β) : Bag β :=
  { r with bodies := r.bodies.setIfInBounds task.index body }

/-- Fire the first occurrence that is due up to `target`, again and again, and then set the
clock to `target`.  `limit` bounds the firings in a row. -/
def advance (behave : Behaviour β C) :
    Nat → Cycles → Bag β → C → Except (Fault × C) (Bag β × C)
  | 0, _, _, context => .error (.overrun, context)
  | limit + 1, target, r, context =>
    match (earliest? r.armed).filter (¬ target < ·.due) with
    | none => .ok ({ r with epoch := target }, context)
    | some e =>
      match r.bodies[e.task.index]? with
      | none => .error (.foreignTask, context)
      | some body =>
        let inner cycles r context := advance behave limit (r.epoch + cycles) r context
        match (behave body e.task).replay inner (r.takeOut e) context with
        | .error stop => .error stop
        | .ok (body, r, context) => advance behave limit target (r.keep e.task body) context

/-- Advance the clock by `cycles`, firing at most `limit` tasks in a row. -/
def poll (behave : Behaviour β C) (limit : Nat) (cycles : Cycles) (r : Bag β) (context : C) :
    Except (Fault × C) (Bag β × C) :=
  advance behave limit (r.epoch + cycles) r context

end Bag

end Cassette.Scheduler
