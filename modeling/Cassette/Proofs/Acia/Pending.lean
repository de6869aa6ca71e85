import Cassette.Proofs.Acia.Timers

/-!
# Pending timers

All that a timer shows is the cycle on which it is due, while it is pending.  A firing takes
its own timer off and arms it again after the delay of its act, and a command of the chip arms
or cancels the timer that it names; every other timer stays due when it was.

## Main definitions

* `Timer.due?` — when a timer fires, if it is pending.
* `Timer.keep` and `Acia.keep` — the timers, and the chip, with one of its timers kept pending
  or cancelled.

## Main results

* `due?_fire` — what a firing leaves pending.
* `command_cancel`, `command_arm`, `command_keepArmed` — with the timers in their places a command
  keeps one of them pending, or cancels it.
-/

namespace Cassette.Acia

variable {ρ : Type}

namespace Timer

theorem id_inj {timer other : Timer} : timer.id = other.id ↔ timer = other := by
  cases timer <;> cases other <;> simp [id]

/-- The cycle on which a timer fires, if it is pending. -/
def due? (timer : Timer) (s : Scheduler Timer) : Option Cycles :=
  (s.occurrence? timer.id).map (·.due)

variable {s : Scheduler Timer}

/-- A pending timer has an entry on the agenda. -/
theorem exists_entry {timer : Timer} {due : Cycles} (h : timer.due? s = some due) :
    ∃ e ∈ s.agenda, e.due = due := by
  obtain ⟨e, hfind, hdue⟩ := Option.map_eq_some_iff.mp h
  exact ⟨e, List.mem_of_find?_eq_some hfind, hdue⟩

theorem due?_dismiss (timer other : Timer) (s : Scheduler Timer) :
    timer.due? (s.dismiss other.id) = if other = timer then none else timer.due? s := by
  unfold due?
  rw [Scheduler.occurrence?_dismiss]
  simp only [id_inj]
  split <;> rfl

theorem due?_place (timer other : Timer) (s : Scheduler Timer) (delay : Cycles) :
    timer.due? ((s.dismiss other.id).place other.id delay)
      = if other = timer then some (s.epoch + delay) else timer.due? s := by
  unfold due?
  rw [Scheduler.occurrence?_place]
  simp only [id_inj]
  split <;> rfl

/-! ### Firings -/

/-- The first entry says when its timer is due. -/
theorem due?_of_head {timer : Timer} {e : Entry} {rest : List Entry} (hs : s.agenda = e :: rest)
    (htask : e.task = timer.id) : timer.due? s = some e.due := by
  unfold due? Scheduler.occurrence?
  rw [hs, List.find?_cons_of_pos (by simpa using htask)]
  rfl

theorem due?_takeOut (h : s.Orderly) {e : Entry} {rest : List Entry} (hs : s.agenda = e :: rest)
    {other : Timer} (htask : e.task = other.id) (timer : Timer) :
    timer.due? (s.takeOut e) = if other = timer then none else timer.due? s := by
  have hsingle := h.single
  rw [hs, List.pairwise_cons] at hsingle
  have htail : (s.takeOut e).occurrence? timer.id = rest.find? (·.task = timer.id) := by
    change s.agenda.tail.find? _ = _
    rw [hs]
    rfl
  unfold due?
  rw [htail]
  split
  · next heq =>
    -- no other entry is for the timer that fires
    rw [List.find?_eq_none.mpr]
    · rfl
    · intro f hf
      have hne := hsingle.1 f hf
      rw [htask, heq] at hne
      simpa using hne.symm
  · next hne =>
    have htimer : e.task ≠ timer.id := by
      rw [htask]
      exact fun heq => hne (id_inj.mp heq)
    unfold Scheduler.occurrence?
    rw [hs, List.find?_cons_of_neg (by simpa using htimer)]

/-- A firing leaves its own timer pending if its act has a delay, and the others as they are. -/
theorem due?_fire (h : s.Orderly) {e : Entry} {rest : List Entry} (hs : s.agenda = e :: rest)
    {other : Timer} (htask : e.task = other.id) (delay? : Option Cycles) (timer : Timer) :
    timer.due? ((renew (s.takeOut e) e.task delay?).putBack e.task other)
      = if other = timer then delay?.map (e.due + ·) else timer.due? s := by
  change timer.due? (renew (s.takeOut e) e.task delay?) = _
  cases delay? with
  | none => exact due?_takeOut h hs htask timer
  | some delay =>
    rw [htask, renew, due?_place, due?_takeOut h hs htask]
    split <;> rfl

end Timer

/-! ### Commands -/

namespace Timer

/-- The timers with one of them pending, as it is or armed afresh; or without it, if it should
not run. -/
def keep (s : Scheduler Timer) (timer : Timer) (run : Bool) (delay : Cycles) : Scheduler Timer :=
  if run then
    if (timer.due? s).isSome then s else renew s timer.id (some delay)
  else s.dismiss timer.id

theorem due?_keep (timer other : Timer) (s : Scheduler Timer) (run : Bool) (delay : Cycles) :
    timer.due? (keep s other run delay)
      = if other = timer then
          if run then (timer.due? s).or (some (s.epoch + delay)) else none
        else timer.due? s := by
  unfold keep
  cases run with
  | false => exact due?_dismiss timer other s
  | true =>
    simp only [↓reduceIte]
    cases hdue : other.due? s with
    | some due =>
      simp only [Option.isSome_some, ↓reduceIte]
      split
      · next heq => rw [← heq, hdue, Option.some_or]
      · rfl
    | none =>
      simp only [Option.isSome_none, Bool.false_eq_true, ↓reduceIte]
      rw [renew, due?_place]
      split
      · next heq => rw [← heq, hdue, Option.none_or]
      · rfl

/-- A timer that is pending exactly if it should be is kept as it is. -/
theorem keep_eq_self {timer : Timer} {run : Bool} (h : (timer.due? s).isSome = run)
    (delay : Cycles) : keep s timer run delay = s := by
  subst h
  unfold keep
  cases hdue : timer.due? s with
  | some due => rfl
  | none => exact Scheduler.dismiss_of_idle (Option.map_eq_none_iff.mp hdue)

@[simp] theorem epoch_keep (s : Scheduler Timer) (timer : Timer) (run : Bool) (delay : Cycles) :
    (keep s timer run delay).epoch = s.epoch := by
  unfold keep
  split
  · split <;> rfl
  · rfl

theorem owns_id {s : Scheduler Timer} (h : s.bodies = bodies) (timer : Timer) :
    s.Owns timer.id := by
  unfold Scheduler.Owns
  rw [h]
  cases timer <;> decide

end Timer

/-- The timers are in their places. -/
def InPlace (a : Acia ρ) : Prop := a.timers.bodies = Timer.bodies

/-- The chip with one of its timers kept pending, or cancelled. -/
def keep (a : Acia ρ) (timer : Timer) (run : Bool) (delay : Cycles) : Acia ρ :=
  { a with timers := Timer.keep a.timers timer run delay }

@[simp] theorem now_keep (a : Acia ρ) (timer : Timer) (run : Bool) (delay : Cycles) :
    (a.keep timer run delay).now = a.now := Timer.epoch_keep ..

section

variable {a : Acia ρ} (h : a.InPlace) (timer : Timer)

include h

theorem InPlace.keep (run : Bool) (delay : Cycles) : (a.keep timer run delay).InPlace := by
  change (Timer.keep a.timers timer run delay).bodies = Timer.bodies
  rw [← h]
  unfold Timer.keep
  split
  · split
    · rfl
    · exact Timer.bodies_renew _ _ _
  · rfl

theorem command_cancel : a.command (.cancel timer.id) = .ok (a.keep timer false 1) := by
  have happly : (Scheduler.Command.cancel timer.id).apply a.timers
      = .ok (a.timers.dismiss timer.id) := if_pos (Timer.owns_id h timer)
  unfold command
  rw [happly]
  rfl

theorem command_arm (hidle : timer.due? a.timers = none) {delay : Cycles} (hdelay : delay ≠ 0) :
    a.command (.arm timer.id delay) = .ok (a.keep timer true delay) := by
  have happly : (Scheduler.Command.arm timer.id delay).apply a.timers
      = .ok (Timer.renew a.timers timer.id (some delay)) := by
    rw [Scheduler.Command.apply, Scheduler.arm_eq, if_neg hdelay, if_pos (Timer.owns_id h timer)]
    rfl
  unfold command Acia.keep Timer.keep
  rw [happly, hidle]
  rfl

theorem command_keepArmed (run : Bool) {delay : Cycles} (hdelay : delay ≠ 0) :
    a.command (.keepArmed timer.id run delay) = .ok (a.keep timer run delay) := by
  have happly : (Scheduler.Command.keepArmed timer.id run delay).apply a.timers
      = .ok (Timer.keep a.timers timer run delay) := by
    rw [Scheduler.Command.apply, Scheduler.keepArmed_eq, if_pos (Timer.owns_id h timer),
      if_neg hdelay]
    unfold Timer.keep Timer.due?
    rw [Option.isSome_map]
    cases run with
    | false => rfl
    | true =>
      simp only [↓reduceIte]
      split <;> rfl
  unfold command
  rw [happly]
  rfl

end

end Cassette.Acia
