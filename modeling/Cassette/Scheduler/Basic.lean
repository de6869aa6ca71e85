import Cassette.Probe

/-!
# The scheduler

Components register tasks once and then arm, move or cancel them.  The armed
occurrences stand on an agenda in the order in which they will fire: by due
cycle, and on one cycle by the turn in which they were armed.  A task has at most
one occurrence on the agenda.

## Main definitions

* `Handle` — names a task of the scheduler that issued it.
* `Entry` — one armed occurrence: its due cycle, its turn and its task.
* `Scheduler` — the clock, the agenda and the bodies of the tasks.
* `Scheduler.arm`, `rearm`, `keepArmed`, `cancel` — what a host or a running task
  may do to the agenda.
* `Scheduler.remaining`, `headroom`, `pending` — what they may ask.
-/

namespace Cassette

/-- Names one task of the scheduler that issued it. -/
structure Handle where
  index : Nat
  deriving DecidableEq

/-- One armed occurrence of a task. -/
structure Entry where
  due : Cycles
  /-- How many occurrences were armed before this one. -/
  turn : Nat
  task : Handle
  deriving DecidableEq

/-- The order of firing: an earlier cycle first, and on one cycle the earlier turn. -/
def Entry.before (e f : Entry) : Bool :=
  e.due < f.due || (e.due = f.due && e.turn < f.turn)

/-- A request that breaks the scheduler's contract. -/
inductive Scheduler.Fault where
  /-- The task is to be armed for the current cycle. -/
  | zeroDelay (task : Handle)
  /-- The task belongs to another scheduler. -/
  | foreignTask
  /-- A poll inside a running task reached a task that is itself running. -/
  | polledInsideTask
  /-- More tasks fell due than the poll was allowed to fire. -/
  | overrun
  deriving DecidableEq

/-- The text of a fault. -/
def Scheduler.Fault.message : Scheduler.Fault → String
  | .zeroDelay task => s!"task TaskId({task.index}) scheduled with a zero delay"
  | .foreignTask => "task handle from a different scheduler"
  | .polledInsideTask => "scheduler polled from inside a task callback"
  | .overrun => "scheduler fired more tasks than its limit"

/-- Tasks with bodies of type `β`, and the agenda of their armed occurrences. -/
structure Scheduler (β : Type) where
  /-- The position of the virtual clock. -/
  epoch : Cycles := 0
  /-- The number of occurrences armed so far. -/
  turns : Nat := 0
  /-- The body of each task; a running task's body is out of its place. -/
  bodies : Array (Option β) := #[]
  /-- The armed occurrences, in the order of firing. -/
  agenda : List Entry := []

namespace Scheduler

variable {β : Type}

/-- The headroom when nothing is armed. -/
def maxHeadroom : Cycles := 0xFFFFFFFF

/-- The agenda with `e` at its place: after everything that fires before it. -/
def enter (e : Entry) : List Entry → List Entry
  | [] => [e]
  | f :: rest => if e.before f then e :: f :: rest else f :: enter e rest

@[simp] theorem mem_enter {e f : Entry} {agenda : List Entry} :
    f ∈ enter e agenda ↔ f = e ∨ f ∈ agenda := by
  induction agenda with
  | nil => simp [enter]
  | cons g rest ih => unfold enter; split <;> grind

/-! ### Tasks -/

/-- The task was issued by this scheduler. -/
def Owns (s : Scheduler β) (task : Handle) : Prop := task.index < s.bodies.size

instance (s : Scheduler β) (task : Handle) : Decidable (s.Owns task) :=
  inferInstanceAs (Decidable (task.index < s.bodies.size))

/-- A new task, which is not armed. -/
def register (s : Scheduler β) (body : β) : Handle × Scheduler β :=
  (⟨s.bodies.size⟩, { s with bodies := s.bodies.push (some body) })

/-! ### Changing the agenda -/

/-- The agenda without the occurrence of `task`. -/
def dismiss (s : Scheduler β) (task : Handle) : Scheduler β :=
  { s with agenda := s.agenda.filter (·.task ≠ task) }

/-- `task` armed `delay` ahead, in the next turn, on an agenda that does not have it. -/
def place (s : Scheduler β) (task : Handle) (delay : Cycles) : Scheduler β :=
  { s with
    turns := s.turns + 1
    agenda := enter ⟨s.epoch + delay, s.turns, task⟩ s.agenda }

/-- Take `task` off the agenda; harmless if it is not on it. -/
def cancel (s : Scheduler β) (task : Handle) : Except Fault (Scheduler β) :=
  if s.Owns task then .ok (s.dismiss task) else .error .foreignTask

/-- Arm `task` to fire `delay` cycles from now.  A task that is armed already moves:
it takes the new due cycle and a new turn.  The delay is examined first. -/
def arm (s : Scheduler β) (task : Handle) (delay : Cycles) : Except Fault (Scheduler β) :=
  if delay = 0 then .error (.zeroDelay task)
  else do return (← s.cancel task).place task delay

/-- Cancel `task` and arm it afresh.  The task is examined before the delay. -/
def rearm (s : Scheduler β) (task : Handle) (delay : Cycles) : Except Fault (Scheduler β) := do
  (← s.cancel task).arm task delay

/-! ### Asking -/

/-- The armed occurrence of `task`. -/
def occurrence? (s : Scheduler β) (task : Handle) : Option Entry :=
  s.agenda.find? (·.task = task)

/-- Whether `task` is armed. -/
def isArmed (s : Scheduler β) (task : Handle) : Except Fault Bool :=
  if s.Owns task then .ok (s.occurrence? task).isSome else .error .foreignTask

/-- Cycles until `task` fires, if it is armed. -/
def remaining (s : Scheduler β) (task : Handle) : Except Fault (Option Cycles) :=
  if s.Owns task then .ok ((s.occurrence? task).map (·.due - s.epoch)) else .error .foreignTask

/-- Cycles that can pass before the next task is due. -/
def headroom (s : Scheduler β) : Cycles :=
  s.agenda.head?.elim maxHeadroom (·.due - s.epoch)

/-- The number of armed tasks. -/
def pending (s : Scheduler β) : Nat := s.agenda.length

/-- Arm `task` if it should run and is idle, and cancel it if it should not run; a
task that should run and is armed keeps its due cycle. -/
def keepArmed (s : Scheduler β) (task : Handle) (run : Bool) (delay : Cycles) :
    Except Fault (Scheduler β) := do
  if run then
    if ← s.isArmed task then return s else s.arm task delay
  else s.cancel task

instance : Probed (Scheduler β) where
  probes := [
    ("epoch", fun s => .count s.epoch.count),
    ("pending", fun s => .count s.pending),
    ("headroom", fun s => .count s.headroom.count)]

end Scheduler

end Cassette
