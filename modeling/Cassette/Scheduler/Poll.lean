import Cassette.Scheduler.Routine

/-!
# Advancing the clock

Polling moves the clock to a target and on the way fires every task that falls
due, in the order of the agenda.  A task is off the agenda and its body out of its
place before the body runs, so that it may arm itself again; while it runs, the
clock shows its own due cycle, however far the host steps the clock.

A task may arm others, or new ones, for ever, so the loop takes a limit on the
firings in a row; at the limit it stops with `Fault.overrun`.

## Main definitions

* `Scheduler.advance` — fire what is due up to a target, within a limit.
* `Scheduler.poll` — advance by a number of cycles.
-/

namespace Cassette.Scheduler

variable {β C : Type}

/-- What a task with a given body does when it fires. -/
abbrev Behaviour (β C : Type) := β → Handle → Routine β C

/-- The scheduler while the task of `e`, the first entry, is about to run: the entry
is off the agenda, the body is out of its place and the clock shows the due cycle. -/
def takeOut (s : Scheduler β) (e : Entry) : Scheduler β :=
  { s with
    epoch := e.due
    agenda := s.agenda.tail
    bodies := s.bodies.setIfInBounds e.task.index none }

/-- The body of `task` back in its place. -/
def putBack (s : Scheduler β) (task : Handle) (body : β) : Scheduler β :=
  { s with bodies := s.bodies.setIfInBounds task.index (some body) }

/-- The body of `task`, unless it is running. -/
def body? (s : Scheduler β) (task : Handle) : Option β := (s.bodies[task.index]?).join

/-- Fire what is due up to `target`, then set the clock to it.  `limit` bounds the
firings in a row; a poll inside a task works within what is left of it. -/
def advance (behave : Behaviour β C) :
    Nat → Cycles → Scheduler β → C → Except (Fault × C) (Scheduler β × C)
  | 0, _, _, context => .error (.overrun, context)
  | limit + 1, target, s, context =>
    match s.agenda with
    | [] => .ok ({ s with epoch := target }, context)
    | e :: _ =>
      if target < e.due then .ok ({ s with epoch := target }, context)
      else
        match s.body? e.task with
        | none => .error (.polledInsideTask, context)
        | some body =>
          let inner cycles s context := advance behave limit (s.epoch + cycles) s context
          match (behave body e.task).run inner (s.takeOut e) context with
          | .error stop => .error stop
          | .ok (body, s, context) => advance behave limit target (s.putBack e.task body) context

/-- Advance the clock by `cycles`, firing at most `limit` tasks in a row. -/
def poll (behave : Behaviour β C) (limit : Nat) (cycles : Cycles) (s : Scheduler β) (context : C) :
    Except (Fault × C) (Scheduler β × C) :=
  advance behave limit (s.epoch + cycles) s context

/-- The limit for a host that sets none: turns are numbered by 64 bits, and every
firing uses up one of them. -/
def turnLimit : Nat := Cycles.size

end Cassette.Scheduler
