import Cassette.Scheduler.Basic

/-!
# Routines

What a running task does, as data: a tree of requests to the scheduler and of
accesses to the context that the scheduler's owner lends to its tasks.  A routine
can be run, and statements about every task body are statements about every tree.

## Main definitions

* `Command` — a change of the agenda.
* `Query` — a question, with the type of its answer.
* `Routine` — a tree of commands, questions and accesses, which ends with the body
  that the task keeps for its next firing.
* `Routine.run` — the effect of a routine, given what a poll inside it does.
-/

namespace Cassette.Scheduler

variable {β C : Type}

/-- A change of the agenda. -/
inductive Command where
  | arm (task : Handle) (delay : Cycles)
  | rearm (task : Handle) (delay : Cycles)
  | keepArmed (task : Handle) (run : Bool) (delay : Cycles)
  | cancel (task : Handle)
  deriving DecidableEq

/-- The scheduler after a command. -/
def Command.apply : Command → Scheduler β → Except Fault (Scheduler β)
  | .arm task delay, s => s.arm task delay
  | .rearm task delay, s => s.rearm task delay
  | .keepArmed task run delay, s => s.keepArmed task run delay
  | .cancel task, s => s.cancel task

/-- A question about the clock or the agenda. -/
inductive Query where
  | epoch
  | pending
  | headroom
  | isArmed (task : Handle)
  | remaining (task : Handle)
  deriving DecidableEq

/-- The type of the answer to a question. -/
def Query.Answer : Query → Type
  | .epoch => Cycles
  | .pending => Nat
  | .headroom => Cycles
  | .isArmed _ => Bool
  | .remaining _ => Option Cycles

/-- The answer to a question. -/
def Query.ask : (q : Query) → Scheduler β → Except Fault q.Answer
  | .epoch, s => .ok s.epoch
  | .pending, s => .ok s.pending
  | .headroom, s => .ok s.headroom
  | .isArmed task, s => s.isArmed task
  | .remaining task, s => s.remaining task

/-- What a running task does.  `β` is the type of task bodies and `C` that of the
context. -/
inductive Routine (β C : Type) : Type where
  /-- Nothing more: the task keeps `body` for its next firing. -/
  | finish (body : β)
  /-- Change the agenda. -/
  | command (c : Command) (next : Routine β C)
  /-- Register a task. -/
  | register (body : β) (next : Handle → Routine β C)
  /-- Ask a question. -/
  | ask (q : Query) (next : q.Answer → Routine β C)
  /-- Look at the context. -/
  | read (next : C → Routine β C)
  /-- Replace the context. -/
  | write (context : C) (next : Routine β C)
  /-- Advance the clock from inside the task. -/
  | poll (cycles : Cycles) (next : Routine β C)

namespace Routine

/-- Change the context by `f`. -/
def update (f : C → C) (next : Routine β C) : Routine β C :=
  .read fun context => .write (f context) next

/-- Look through the probe named `name` of the scheduler. -/
def probe (name : String) (next : Option Reading → Routine β C) : Routine β C :=
  match name with
  | "epoch" => .ask .epoch fun epoch => next (some (.count epoch.count))
  | "pending" => .ask .pending fun pending => next (some (.count pending))
  | "headroom" => .ask .headroom fun headroom => next (some (.count headroom.count))
  | _ => next none

/-- The effect of a routine on a scheduler and its context, where `poll` is the
effect of advancing the clock.  A fault comes with the context as it was then. -/
def run (poll : Cycles → Scheduler β → C → Except (Fault × C) (Scheduler β × C)) :
    Routine β C → Scheduler β → C → Except (Fault × C) (β × Scheduler β × C)
  | .finish body, s, context => .ok (body, s, context)
  | .command c next, s, context =>
    match c.apply s with
    | .ok s => next.run poll s context
    | .error fault => .error (fault, context)
  | .register body next, s, context =>
    (next (s.register body).1).run poll (s.register body).2 context
  | .ask q next, s, context =>
    match q.ask s with
    | .ok answer => (next answer).run poll s context
    | .error fault => .error (fault, context)
  | .read next, s, context => (next context).run poll s context
  | .write context next, s, _ => next.run poll s context
  | .poll cycles next, s, context =>
    match poll cycles s context with
    | .ok (s, context) => next.run poll s context
    | .error stop => .error stop

/-- The routine never advances the clock itself. -/
inductive PollFree : Routine β C → Prop where
  | finish (body : β) : PollFree (.finish body)
  | command (c : Command) {next : Routine β C} : PollFree next → PollFree (.command c next)
  | register (body : β) {next : Handle → Routine β C} :
      (∀ task, PollFree (next task)) → PollFree (.register body next)
  | ask (q : Query) {next : q.Answer → Routine β C} :
      (∀ answer, PollFree (next answer)) → PollFree (.ask q next)
  | read {next : C → Routine β C} : (∀ context, PollFree (next context)) → PollFree (.read next)
  | write (context : C) {next : Routine β C} : PollFree next → PollFree (.write context next)

end Routine

end Cassette.Scheduler
