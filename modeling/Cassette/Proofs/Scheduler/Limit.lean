import Cassette.Proofs.Scheduler.Machine

/-!
# Steps and limits

A poll within a limit and the machine that takes one step after another come to the same, as long
as the limit is not met.  A limit counts firings, and every firing is a step.  So a run that met a
limit has taken at least as many steps, and for a run that stops after some number of steps, whether
at its end or with a fault, every higher limit is enough.

## Main definitions

* `Machine.Outlasts` — a run that has met its limit has taken as many steps.

## Main results

* `outlasts_run`, `outlasts_advance` — routines and polls outlast their limits.
* `run_eq_error_of_step`, `run_eq_ok_of_finish` — where the machine stops the run stops, from some
  limit on.
-/

namespace Cassette.Scheduler

variable {β C : Type}

namespace Machine

variable {behave : Behaviour β C} {host : Routine β C} {context : C}

theorem after_succ {n : Nat} {m m' : Machine β C} (hstep : m.step behave = .ok (some m')) :
    after behave (n + 1) m = after behave n m' := by
  rw [after, hstep]

theorem after_ne_none_of_reaches {n : Nat} {m m' : Machine β C} (h : Reaches behave m m')
    (hn : after behave n m' ≠ none) : after behave n m ≠ none := by
  induction h using Relation.ReflTransGen.head_induction_on with
  | refl => exact hn
  | head hstep _ ih =>
    intro hnone
    have hnext := after_add hnone 1
    rw [after_succ hstep] at hnext
    exact ih hnext

/-- The run from `m` has taken at least `limit` steps if `x` has met its limit. -/
def Outlasts {α : Type} (behave : Behaviour β C) (limit : Nat) (m : Machine β C)
    (x : Except (Fault × C) α) : Prop :=
  Overruns x → after behave limit m ≠ none

theorem Outlasts.head {α : Type} {limit : Nat} {m m₁ : Machine β C} {x : Except (Fault × C) α}
    (hstep : m.step behave = .ok (some m₁)) (h : Outlasts behave limit m₁ x) :
    Outlasts behave (limit + 1) m x := by
  intro hover
  rw [after_succ hstep]
  exact h hover

theorem Outlasts.of_reaches {α : Type} {limit : Nat} {m m₁ : Machine β C}
    {x : Except (Fault × C) α} (hreaches : Reaches behave m m₁) (h : Outlasts behave limit m₁ x) :
    Outlasts behave limit m x :=
  fun hover => after_ne_none_of_reaches hreaches (h hover)

theorem outlasts_ok {α : Type} {limit : Nat} {m : Machine β C} (out : α) :
    Outlasts behave limit m (.ok out) := by
  rintro ⟨_, hover⟩
  simp at hover

theorem outlasts_error {α : Type} {limit : Nat} {m : Machine β C} {fault : Fault}
    (h : fault ≠ .overrun) (context : C) :
    Outlasts behave limit m (.error (fault, context) : Except (Fault × C) α) := by
  rintro ⟨_, hover⟩
  obtain ⟨hfault, -⟩ := Prod.mk.inj (Except.error.inj hover)
  exact absurd hfault h

theorem ne_overrun_of_breach {fault : Fault} (h : fault.IsBreach) : fault ≠ .overrun := by
  rintro rfl
  exact h

theorem Outlasts.bind {α γ : Type} {limit : Nat} {m : Machine β C} {Fits : α → Machine β C → Prop}
    {x : Except (Fault × C) α} {f : α → Except (Fault × C) γ} (h : Outlasts behave limit m x)
    (hfollows : Follows behave m Fits x)
    (hf : ∀ out m', Fits out m' → Outlasts behave limit m' (f out)) :
    Outlasts behave limit m (x >>= f) := by
  cases x with
  | error stop =>
    rintro ⟨context, hover⟩
    exact h ⟨context, congrArg _ (Except.error.inj hover)⟩
  | ok out =>
    obtain ⟨m', hreaches, hfits⟩ := hfollows
    exact .of_reaches hreaches (hf out m' hfits)

theorem outlasts_run {poll : Cycles → Scheduler β → C → Except (Fault × C) (Scheduler β × C)}
    {limit : Nat} {calls : List (Call β C)}
    (hpoll : ∀ (l : Ledger β) (context : C) cycles next, l.Sound →
      Follows behave ⟨l, context, .loop (l.epoch + cycles) next, calls⟩ (Polled next calls)
        (poll cycles l.view context))
    (hlimit : ∀ (l : Ledger β) (context : C) cycles next, l.Sound →
      Outlasts behave limit ⟨l, context, .loop (l.epoch + cycles) next, calls⟩
        (poll cycles l.view context))
    (r : Routine β C) {l : Ledger β} (context : C) (hs : l.Sound) :
    Outlasts behave limit ⟨l, context, .routine r, calls⟩ (r.run poll l.view context) := by
  induction r generalizing l context with
  | finish body => exact outlasts_ok _
  | command c next ih =>
    have hview := hs.apply_view c
    cases ha : l.apply c with
    | error fault =>
      rw [ha] at hview
      rw [Routine.run, hview]
      exact outlasts_error (ne_overrun_of_breach (isBreach_of_apply hview)) context
    | ok l' =>
      rw [Routine.run, hview, ha]
      exact .of_reaches (.single (congrArg (Except.map _) ha)) (ih context (hs.apply ha))
  | register body next ih =>
    obtain ⟨hhandle, hview⟩ := l.register_view body
    rw [Routine.run, ← hhandle, ← hview]
    exact .of_reaches (.single rfl) (ih _ context (hs.register body))
  | ask q next ih =>
    have hview := hs.ask_view q
    cases ha : l.ask q with
    | error fault =>
      rw [ha] at hview
      rw [Routine.run, hview]
      exact outlasts_error (ne_overrun_of_breach (isBreach_of_ask hview)) context
    | ok answer =>
      rw [Routine.run, hview, ha]
      exact .of_reaches (.single (congrArg (Except.map _) ha)) (ih answer context hs)
  | read next ih => exact .of_reaches (.single rfl) (ih context context hs)
  | write written next ih => exact .of_reaches (.single rfl) (ih written hs)
  | poll cycles next ih =>
    rw [run_poll]
    refine .of_reaches (.single rfl)
      ((hlimit l context cycles next hs).bind (hpoll l context cycles next hs) ?_)
    rintro ⟨s', context'⟩ m' ⟨l', hsound, rfl, rfl⟩
    exact ih context' hsound

/-- A poll that meets its limit has taken at least so many steps: each firing is one. -/
theorem outlasts_advance (behave : Behaviour β C) (limit : Nat) (target : Cycles) {l : Ledger β}
    (context : C) (next : Routine β C) (calls : List (Call β C)) (hs : l.Sound) :
    Outlasts behave limit ⟨l, context, .loop target next, calls⟩
      (advance behave limit target l.view context) := by
  induction limit generalizing target l context next calls with
  | zero => exact fun _ => by simp [after]
  | succ limit ih =>
    by_cases hidle : ∀ e ∈ l.pending.head?, target < e.due
    · rw [advance_of_idle (s := l.view) hidle]
      exact outlasts_ok _
    · obtain ⟨e, rest, hpending, hdue⟩ := exists_due (s := l.view) hidle
      have hpending : l.pending = e :: rest := hpending
      have hturn : turn behave ⟨l, context, .loop target next, calls⟩ target next = _ :=
        turn_of_due hpending hdue
      rw [advance_due (s := l.view) hpending hdue, l.body?_view]
      dsimp only at hturn
      cases hbody : l.body? e.task with
      | none => exact outlasts_error (by simp) context
      | some body =>
        rw [hbody] at hturn
        refine .head (congrArg (Except.map some) hturn) ?_
        rw [← l.takeOut_view]
        have hsound := hs.takeOut hpending
        have hnested : ∀ (l' : Ledger β) (context' : C) cycles next', l'.Sound →
            Follows behave ⟨l', context', .loop (l'.epoch + cycles) next',
              ⟨target, e.task, next⟩ :: calls⟩ _ (Scheduler.poll behave limit cycles l'.view
              context') := fun l' context' cycles next' hs' =>
          follows_advance behave limit (l'.epoch + cycles) context' next' _ hs'
        refine (outlasts_run hnested ?_ (behave body e.task) context hsound).bind
          (follows_run hnested (behave body e.task) context hsound) ?_
        · intro l' context' cycles next' hs'
          exact ih (l'.epoch + cycles) context' next' _ hs'
        · rintro ⟨body', s', context'⟩ m' ⟨l', hsound', rfl, rfl⟩
          rw [← l'.putBack_view]
          exact .of_reaches (.single rfl)
            (ih target context' next calls (hsound'.putBack e.task body'))

/-- The machine does what a host does, up to the limit, -/
theorem follows_host (behave : Behaviour β C) (host : Routine β C) (context : C) (limit : Nat) :
    Follows behave (start host context) (Finished [])
      (host.run (Scheduler.poll behave limit) {} context) := by
  rw [← Ledger.view_new]
  exact follows_run (fun l context cycles next hs =>
    follows_advance behave limit (l.epoch + cycles) context next [] hs) host context .new

/-- and has taken as many steps as that if the host has met the limit. -/
theorem outlasts_host (behave : Behaviour β C) (host : Routine β C) (context : C) (limit : Nat) :
    Outlasts behave limit (start host context)
      (host.run (Scheduler.poll behave limit) {} context) := by
  rw [← Ledger.view_new]
  exact outlasts_run
    (fun l context cycles next hs =>
      follows_advance behave limit (l.epoch + cycles) context next [] hs)
    (fun l context cycles next hs =>
      outlasts_advance behave limit (l.epoch + cycles) context next [] hs) host context .new

theorem after_eq_none_of_stop {m m' : Machine β C} (h : Reaches behave m m')
    (hstop : ∀ m'', m'.step behave ≠ .ok (some m'')) :
    ∃ n, ∀ extra, after behave (n + extra) m = none := by
  induction h using Relation.ReflTransGen.head_induction_on with
  | refl =>
    refine ⟨1, fun extra => after_add ?_ extra⟩
    rw [after]
    split
    · next hstep => exact absurd hstep (hstop _)
    · rfl
  | head hstep _ ih =>
    obtain ⟨n, hn⟩ := ih
    refine ⟨n + 1, fun extra => ?_⟩
    rw [Nat.add_right_comm, after_succ hstep]
    exact hn extra

/-- Where the machine stops the host's run stops, from some limit on. -/
theorem run_of_stop {m : Machine β C} (h : Reaches behave (start host context) m)
    (hstop : ∀ m', m.step behave ≠ .ok (some m')) :
    ∃ enough, ∀ limit, enough ≤ limit →
      match host.run (Scheduler.poll behave limit) {} context with
      | .ok out => Finished [] out m
      | .error (fault, context') => m.context = context' ∧ m.step behave = .error fault := by
  obtain ⟨enough, hnone⟩ := after_eq_none_of_stop h hstop
  refine ⟨enough, ?_⟩
  intro limit hle
  obtain ⟨extra, rfl⟩ := Nat.exists_eq_add_of_le hle
  have hunique : ∀ last, Reaches behave (start host context) last →
      (∀ m', last.step behave ≠ .ok (some m')) → last = m := by
    intro last hlast hend
    rcases Relation.ReflTransGen.cases_head (reaches_stop hlast h hstop) with rfl | ⟨m', hstep, -⟩
    · rfl
    · exact absurd hstep (hend m')
  have hfollows := follows_host behave host context (enough + extra)
  have houtlasts := outlasts_host behave host context (enough + extra)
  cases hrun : host.run (Scheduler.poll behave (enough + extra)) {} context with
  | ok out =>
    rw [hrun] at hfollows
    obtain ⟨last, hlast, hfinished⟩ := hfollows
    obtain rfl : last = m := by
      refine hunique last hlast ?_
      obtain ⟨l, -, -, rfl⟩ := hfinished
      intro m' hstep
      simp [step] at hstep
    exact hfinished
  | error stop =>
    obtain ⟨fault, context'⟩ := stop
    rw [hrun] at hfollows houtlasts
    have hne : fault ≠ .overrun := by
      rintro rfl
      exact houtlasts ⟨context', rfl⟩ (hnone extra)
    obtain ⟨last, hlast, hcontext, hfault⟩ := hfollows hne
    obtain rfl : last = m := hunique last hlast fun m' hstep => by simp [hfault] at hstep
    exact ⟨hcontext, hfault⟩

/-- A fault that the machine comes to is one that the host's run ends with, from some limit on. -/
theorem run_eq_error_of_step {m : Machine β C} {fault : Fault}
    (h : Reaches behave (start host context) m) (hfault : m.step behave = .error fault) :
    ∃ enough, ∀ limit, enough ≤ limit →
      host.run (Scheduler.poll behave limit) {} context = .error (fault, m.context) := by
  obtain ⟨enough, hrun⟩ := run_of_stop h fun m' hstep => by simp [hfault] at hstep
  refine ⟨enough, ?_⟩
  intro limit hle
  have hlimit := hrun limit hle
  cases hout : host.run (Scheduler.poll behave limit) {} context with
  | ok out =>
    rw [hout] at hlimit
    obtain ⟨l, -, -, rfl⟩ := hlimit
    simp [step] at hfault
  | error stop =>
    obtain ⟨other, context'⟩ := stop
    rw [hout] at hlimit
    obtain ⟨rfl, hother⟩ := hlimit
    rw [hfault] at hother
    rw [Except.error.inj hother]

/-- And so is the end that it comes to. -/
theorem run_eq_ok_of_finish {m : Machine β C} {body : β}
    (h : Reaches behave (start host context) m) (hdoing : m.doing = .routine (.finish body))
    (hcalls : m.calls = []) :
    ∃ enough, ∀ limit, enough ≤ limit →
      host.run (Scheduler.poll behave limit) {} context = .ok (body, m.ledger.view, m.context) := by
  obtain ⟨l, context₁, doing, calls⟩ := m
  obtain rfl : doing = _ := hdoing
  obtain rfl : calls = [] := hcalls
  obtain ⟨enough, hrun⟩ := run_of_stop h fun m' hstep => by simp [step] at hstep
  refine ⟨enough, ?_⟩
  intro limit hle
  have hlimit := hrun limit hle
  cases hout : host.run (Scheduler.poll behave limit) {} context with
  | ok out =>
    rw [hout] at hlimit
    obtain ⟨l', -, hview, hm⟩ := hlimit
    obtain ⟨rfl, rfl, hdoing, -⟩ := Machine.mk.inj hm
    obtain rfl := Routine.finish.inj (Doing.routine.inj hdoing)
    rw [hview]
  | error stop =>
    rw [hout] at hlimit
    exact absurd hlimit.2 (by simp [step])

end Machine

end Cassette.Scheduler
