import Cassette.Proofs.Scheduler.Firing

/-!
# What is pending besides a task

Every occurrence that is armed takes a turn, so a task that is armed and cancelled changes the turns
of all that are armed after it.  It changes nothing in the order in which the others fire.

## Main definitions

* `Scheduler.beside` — what is pending besides a task, in the order of firing, without the turns.

## Main results

* `beside_dismiss`, `Orderly.beside_place`, `beside_cons` — what it is after a change to the agenda.
* `find?_beside` — it tells when any other task is due.
-/

namespace Cassette.Scheduler

variable {β : Type} {s : Scheduler β} {task other : Handle}

/-- What is pending besides `task`, in the order of firing, without the turns. -/
def beside (s : Scheduler β) (task : Handle) : List Entry :=
  (s.agenda.filter (·.task ≠ task)).map Entry.unturned

theorem beside_dismiss (s : Scheduler β) (task other : Handle) :
    (s.dismiss other).beside task = (s.beside task).filter (·.task ≠ other) := by
  unfold beside dismiss
  dsimp only
  rw [List.filter_map, List.filter_filter, List.filter_filter]
  exact congrArg _ (List.filter_congr fun e _ => Bool.and_comm _ _)

@[simp] theorem beside_dismiss_self (s : Scheduler β) (task : Handle) :
    (s.dismiss task).beside task = s.beside task := by
  unfold beside dismiss
  dsimp only
  rw [List.filter_filter]
  simp only [Bool.and_self]

@[simp] theorem beside_place_self (s : Scheduler β) (task : Handle) (delay : Cycles) :
    (s.place task delay).beside task = s.beside task :=
  congrArg (List.map Entry.unturned) (filter_enter_of_neg (by simp) s.agenda)

theorem Orderly.beside_place (h : s.Orderly) (hne : other ≠ task) (delay : Cycles) :
    (s.place other delay).beside task = enter ⟨s.epoch + delay, 0, other⟩ (s.beside task) := by
  unfold beside Scheduler.place
  dsimp only
  rw [filter_enter_of_pos (by simpa using hne) h.sorted,
    unturned_enter fun f hf => h.turn_lt f (List.mem_filter.mp hf).1]
  rfl

theorem find?_beside (s : Scheduler β) (hne : other ≠ task) :
    (s.beside task).find? (·.task = other) = (s.occurrence? other).map Entry.unturned := by
  have hfind : (s.agenda.filter (·.task ≠ task)).find? (·.task = other)
      = s.agenda.find? (·.task = other) := by
    rw [List.find?_filter]
    congr 1
    funext e
    by_cases he : e.task = other
    · simp [he, hne]
    · simp [he]
  unfold occurrence? beside
  rw [List.find?_map, ← hfind]
  rfl

theorem beside_cons {e : Entry} {rest : List Entry} (hs : s.agenda = e :: rest) :
    s.beside task = if e.task = task then (s.takeOut e).beside task
      else e.unturned :: (s.takeOut e).beside task := by
  have htail : (s.takeOut e).agenda = rest := by
    change s.agenda.tail = rest
    rw [hs]
    rfl
  unfold beside
  rw [hs, htail, List.filter_cons]
  by_cases he : e.task = task <;> simp [he]

end Cassette.Scheduler
