import Mathlib.Logic.Relation
import Cassette.Proofs.Scheduler.Ledger

/-!
# One step at a time

A task may advance the clock itself, and then other tasks run while it waits; polls can be nested
to any depth.  Here a run of a host and its tasks is taken apart into single steps, on a ledger
that keeps every occurrence in both of its places.  The polls that wait for a task stand on a
stack, so that every state that anything can be seen in is the state of a machine.

## Main definitions

* `Call` — a poll that waits for the task it has fired.
* `Machine`, `Machine.step` — a state of a run, and the state after it.
* `Machine.Reaches` — any number of steps.
* `Machine.Move` — what one step can do.
* `Machine.Follows` — a machine comes to what a result says.

## Main results

* `move_of_step` — what a step does is a move.
* `follows_run`, `follows_advance` — the machine does what `Routine.run` and `advance` do.
* `sound_of_reaches` — every ledger that is reached is sound.
* `slots_agree_with_pending` — **the pending occurrences and the slots agree in every state of a
  run, and the answers are accurate.**
-/

namespace Cassette.Scheduler

variable {β C : Type}

/-- A poll that waits for the task it has fired. -/
structure Call (β C : Type) where
  target : Cycles
  task : Handle
  /-- What follows the poll. -/
  next : Routine β C

/-- What a machine is at. -/
inductive Doing (β C : Type) where
  /-- A routine of the host, or of the task that the uppermost call waits for. -/
  | routine (r : Routine β C)
  /-- The loop of a poll, with what follows the poll. -/
  | loop (target : Cycles) (next : Routine β C)

/-- A state of a run. -/
structure Machine (β C : Type) where
  ledger : Ledger β
  context : C
  doing : Doing β C
  /-- The polls that wait, the innermost first. -/
  calls : List (Call β C) := []

namespace Machine

/-- A host before its first request, on an empty ledger. -/
def start (host : Routine β C) (context : C) : Machine β C :=
  { ledger := {}, context, doing := .routine host }

/-! ### Steps -/

/-- One turn of the loop of a poll: fire the first occurrence if it is due, or else set the clock
and go on with what follows. -/
def turn (behave : Behaviour β C) (m : Machine β C) (target : Cycles) (next : Routine β C) :
    Except Fault (Machine β C) :=
  let arrived := { m with ledger := { m.ledger with epoch := target }, doing := .routine next }
  match m.ledger.pending with
  | [] => .ok arrived
  | e :: _ =>
    if target < e.due then .ok arrived
    else
      match m.ledger.body? e.task with
      | none => .error .polledInsideTask
      | some body =>
        .ok { m with
          ledger := m.ledger.takeOut e
          doing := .routine (behave body e.task)
          calls := ⟨target, e.task, next⟩ :: m.calls }

/-- The state after a step, if the host has not come to its end. -/
def step (behave : Behaviour β C) (m : Machine β C) : Except Fault (Option (Machine β C)) :=
  match m.doing with
  | .routine (.finish body) =>
    match m.calls with
    | [] => .ok none
    | call :: calls =>
      .ok (some { m with
        ledger := m.ledger.putBack call.task body
        doing := .loop call.target call.next
        calls })
  | .routine (.command c next) =>
    (m.ledger.apply c).map fun ledger => some { m with ledger, doing := .routine next }
  | .routine (.register body next) =>
    .ok (some { m with
      ledger := (m.ledger.register body).2
      doing := .routine (next (m.ledger.register body).1) })
  | .routine (.ask q next) =>
    (m.ledger.ask q).map fun answer => some { m with doing := .routine (next answer) }
  | .routine (.read next) => .ok (some { m with doing := .routine (next m.context) })
  | .routine (.write context next) => .ok (some { m with context, doing := .routine next })
  | .routine (.poll cycles next) =>
    .ok (some { m with doing := .loop (m.ledger.epoch + cycles) next })
  | .loop target next => (m.turn behave target next).map some

/-- `m` comes to `m'` in any number of steps. -/
abbrev Reaches (behave : Behaviour β C) : Machine β C → Machine β C → Prop :=
  Relation.ReflTransGen fun m m' => m.step behave = .ok (some m')

variable {behave : Behaviour β C}

/-- What one step can do. -/
inductive Move (behave : Behaviour β C) : Machine β C → Machine β C → Prop where
  /-- A routine makes a request, or looks at the context or replaces it. -/
  | serve {l l' : Ledger β} {context context' : C} {r r' : Routine β C} (calls : List (Call β C))
      (hledger : l' = l ∨ (∃ c, l.apply c = .ok l') ∨ ∃ body, l' = (l.register body).2)
      (hfree : r.PollFree → r'.PollFree) :
      Move behave ⟨l, context, .routine r, calls⟩ ⟨l', context', .routine r', calls⟩
  /-- A poll computes its target. -/
  | poll (l : Ledger β) (context : C) (cycles : Cycles) (next : Routine β C)
      (calls : List (Call β C)) :
      Move behave ⟨l, context, .routine (.poll cycles next), calls⟩
        ⟨l, context, .loop (l.epoch + cycles) next, calls⟩
  /-- Nothing more is due, and the clock is set to the target. -/
  | arrive {l : Ledger β} {target : Cycles} (context : C) (next : Routine β C)
      (calls : List (Call β C)) (hidle : ∀ e ∈ l.pending.head?, target < e.due) :
      Move behave ⟨l, context, .loop target next, calls⟩
        ⟨{ l with epoch := target }, context, .routine next, calls⟩
  /-- A task fires. -/
  | fire {l : Ledger β} {target : Cycles} {e : Entry} {rest : List Entry} (context : C)
      (next : Routine β C) (calls : List (Call β C)) (body : β) (hpending : l.pending = e :: rest)
      (hdue : ¬ target < e.due) :
      Move behave ⟨l, context, .loop target next, calls⟩
        ⟨l.takeOut e, context, .routine (behave body e.task), ⟨target, e.task, next⟩ :: calls⟩
  /-- A task has come to its end, and the poll that fired it goes on. -/
  | resume (l : Ledger β) (context : C) (body : β) (call : Call β C) (calls : List (Call β C)) :
      Move behave ⟨l, context, .routine (.finish body), call :: calls⟩
        ⟨l.putBack call.task body, context, .loop call.target call.next, calls⟩

theorem turn_of_idle {m : Machine β C} {target : Cycles} {next : Routine β C}
    (h : ∀ e ∈ m.ledger.pending.head?, target < e.due) :
    m.turn behave target next
      = .ok { m with ledger := { m.ledger with epoch := target }, doing := .routine next } := by
  unfold turn
  split
  · rfl
  · next e rest hpending =>
    have he : target < e.due := h e (by rw [hpending]; rfl)
    exact if_pos he

theorem turn_of_due {m : Machine β C} {target : Cycles} {next : Routine β C} {e : Entry}
    {rest : List Entry} (hpending : m.ledger.pending = e :: rest) (hdue : ¬ target < e.due) :
    m.turn behave target next
      = match m.ledger.body? e.task with
        | none => .error .polledInsideTask
        | some body =>
          .ok { m with
            ledger := m.ledger.takeOut e
            doing := .routine (behave body e.task)
            calls := ⟨target, e.task, next⟩ :: m.calls } := by
  rw [turn, hpending]
  exact if_neg hdue

theorem step_of_idle {l : Ledger β} {context : C} {target : Cycles} {next : Routine β C}
    {calls : List (Call β C)} (h : ∀ e ∈ l.pending.head?, target < e.due) :
    step behave ⟨l, context, .loop target next, calls⟩
      = .ok (some ⟨{ l with epoch := target }, context, .routine next, calls⟩) :=
  congrArg (Except.map some) (turn_of_idle h)

theorem step_of_due {l : Ledger β} {context : C} {target : Cycles} {next : Routine β C}
    {calls : List (Call β C)} {e : Entry} {rest : List Entry} (hpending : l.pending = e :: rest)
    (hdue : ¬ target < e.due) :
    step behave ⟨l, context, .loop target next, calls⟩
      = match l.body? e.task with
        | none => .error .polledInsideTask
        | some body =>
          .ok (some ⟨l.takeOut e, context, .routine (behave body e.task),
            ⟨target, e.task, next⟩ :: calls⟩) := by
  refine (congrArg (Except.map some) (turn_of_due hpending hdue)).trans ?_
  cases l.body? e.task <;> rfl

theorem move_of_turn {l : Ledger β} {context : C} {target : Cycles} {next : Routine β C}
    {calls : List (Call β C)} {m' : Machine β C}
    (h : turn behave ⟨l, context, .loop target next, calls⟩ target next = .ok m') :
    Move behave ⟨l, context, .loop target next, calls⟩ m' := by
  by_cases hidle : ∀ e ∈ l.pending.head?, target < e.due
  · rw [turn_of_idle hidle] at h
    obtain rfl := Except.ok.inj h
    exact .arrive context next calls hidle
  · obtain ⟨e, rest, hpending, hdue⟩ := exists_due (s := l.view) hidle
    rw [turn_of_due hpending hdue] at h
    cases hbody : l.body? e.task with
    | none => simp [hbody] at h
    | some body =>
      rw [hbody] at h
      obtain rfl := Except.ok.inj h
      exact .fire context next calls body hpending hdue

theorem move_of_step {m m' : Machine β C} (h : m.step behave = .ok (some m')) :
    Move behave m m' := by
  obtain ⟨l, context, doing, calls⟩ := m
  cases doing with
  | loop target next =>
    obtain ⟨m₁, hturn, hm⟩ := map_ok h
    obtain rfl := Option.some.inj hm
    exact move_of_turn hturn
  | routine r =>
    cases r with
    | finish body =>
      cases calls with
      | nil => simp [step] at h
      | cons call calls =>
        obtain rfl := Option.some.inj (Except.ok.inj h)
        exact .resume l context body call calls
    | command c next =>
      obtain ⟨l', ha, hm⟩ := map_ok h
      obtain rfl := Option.some.inj hm
      refine .serve calls (Or.inr (Or.inl ⟨c, ha⟩)) ?_
      intro hfree
      cases hfree with
      | command _ hnext => exact hnext
    | register body next =>
      obtain rfl := Option.some.inj (Except.ok.inj h)
      refine .serve calls (Or.inr (Or.inr ⟨body, rfl⟩)) ?_
      intro hfree
      cases hfree with
      | register _ hnext => exact hnext _
    | ask q next =>
      obtain ⟨answer, -, hm⟩ := map_ok h
      obtain rfl := Option.some.inj hm
      refine .serve calls (Or.inl rfl) ?_
      intro hfree
      cases hfree with
      | ask _ hnext => exact hnext _
    | read next =>
      obtain rfl := Option.some.inj (Except.ok.inj h)
      refine .serve calls (Or.inl rfl) ?_
      intro hfree
      cases hfree with
      | read hnext => exact hnext _
    | write context' next =>
      obtain rfl := Option.some.inj (Except.ok.inj h)
      refine .serve calls (Or.inl rfl) ?_
      intro hfree
      cases hfree with
      | write _ hnext => exact hnext
    | poll cycles next =>
      obtain rfl := Option.some.inj (Except.ok.inj h)
      exact .poll l context cycles next calls

/-! ### Every ledger is sound -/

theorem Move.sound {m m' : Machine β C} (h : Move behave m m') (hs : m.ledger.Sound) :
    m'.ledger.Sound := by
  cases h with
  | serve calls hledger _ =>
    rcases hledger with rfl | ⟨c, ha⟩ | ⟨body, rfl⟩
    · exact hs
    · exact hs.apply ha
    · exact hs.register body
  | poll l context cycles next calls => exact hs
  | arrive context next calls hidle => exact hs.arrive hidle
  | fire context next calls body hpending hdue => exact hs.takeOut hpending
  | resume l context body call calls => exact hs.putBack call.task body

theorem sound_of_reaches {host : Routine β C} {context : C} {m : Machine β C}
    (h : Reaches behave (start host context) m) : m.ledger.Sound := by
  induction h with
  | refl => exact .new
  | tail _ hstep ih => exact (move_of_step hstep).sound ih

/-! ### The machine does what a run does -/

/-- What a result says of a machine at `m`: if it is no fault, `m` comes to a machine that fits it;
and if it is a fault other than the end of a limit, to one that has that fault in its next step. -/
def Follows {α : Type} (behave : Behaviour β C) (m : Machine β C) (Fits : α → Machine β C → Prop) :
    Except (Fault × C) α → Prop
  | .ok out => ∃ m', Reaches behave m m' ∧ Fits out m'
  | .error (fault, context) =>
    fault ≠ .overrun →
      ∃ m', Reaches behave m m' ∧ m'.context = context ∧ m'.step behave = .error fault

/-- The machine has the scheduler in a sound ledger, and it is at `doing` within `calls`. -/
def At (s : Scheduler β) (context : C) (doing : Doing β C) (calls : List (Call β C))
    (m : Machine β C) : Prop :=
  ∃ l : Ledger β, l.Sound ∧ l.view = s ∧ m = ⟨l, context, doing, calls⟩

theorem Follows.head {α : Type} {m m₁ : Machine β C} {Fits : α → Machine β C → Prop}
    {x : Except (Fault × C) α} (hstep : m.step behave = .ok (some m₁))
    (h : Follows behave m₁ Fits x) : Follows behave m Fits x := by
  cases x with
  | ok out =>
    obtain ⟨m', hreaches, hfits⟩ := h
    exact ⟨m', .head hstep hreaches, hfits⟩
  | error stop =>
    intro hne
    obtain ⟨m', hreaches, hfault⟩ := h hne
    exact ⟨m', .head hstep hreaches, hfault⟩

/-- A fault in the next step. -/
theorem follows_fault {α : Type} {m : Machine β C} {Fits : α → Machine β C → Prop} {fault : Fault}
    (hstep : m.step behave = .error fault) :
    Follows behave m Fits (.error (fault, m.context) : Except (Fault × C) α) :=
  fun _ => ⟨m, .refl, rfl, hstep⟩

/-- One part of a run, and then the rest of it. -/
theorem Follows.bind {α γ : Type} {m : Machine β C} {Fits : α → Machine β C → Prop}
    {Fits' : γ → Machine β C → Prop} {x : Except (Fault × C) α} {f : α → Except (Fault × C) γ}
    (h : Follows behave m Fits x)
    (hf : ∀ out m', Fits out m' → Follows behave m' Fits' (f out)) :
    Follows behave m Fits' (x >>= f) := by
  cases x with
  | error stop => exact h
  | ok out =>
    obtain ⟨m', hreaches, hfits⟩ := h
    have hrest := hf out m' hfits
    change Follows behave m Fits' (f out)
    cases hx : f out with
    | ok out' =>
      rw [hx] at hrest
      obtain ⟨m'', hreaches', hfits'⟩ := hrest
      exact ⟨m'', hreaches.trans hreaches', hfits'⟩
    | error stop =>
      rw [hx] at hrest
      intro hne
      obtain ⟨m'', hreaches', hfault⟩ := hrest hne
      exact ⟨m'', hreaches.trans hreaches', hfault⟩

/-- The machine is back from a poll. -/
abbrev Polled (next : Routine β C) (calls : List (Call β C)) (out : Scheduler β × C) :
    Machine β C → Prop :=
  At out.1 out.2 (.routine next) calls

/-- The machine is at the end of a routine. -/
abbrev Finished (calls : List (Call β C)) (out : β × Scheduler β × C) : Machine β C → Prop :=
  At out.2.1 out.2.2 (.routine (.finish out.1)) calls

theorem run_poll (poll : Cycles → Scheduler β → C → Except (Fault × C) (Scheduler β × C))
    (cycles : Cycles) (next : Routine β C) (s : Scheduler β) (context : C) :
    (Routine.poll cycles next).run poll s context
      = poll cycles s context >>= fun out => next.run poll out.1 out.2 := by
  rw [Routine.run]
  cases poll cycles s context <;> rfl

theorem follows_run {poll : Cycles → Scheduler β → C → Except (Fault × C) (Scheduler β × C)}
    {calls : List (Call β C)}
    (hpoll : ∀ (l : Ledger β) (context : C) cycles next, l.Sound →
      Follows behave ⟨l, context, .loop (l.epoch + cycles) next, calls⟩ (Polled next calls)
        (poll cycles l.view context))
    (r : Routine β C) {l : Ledger β} (context : C) (hs : l.Sound) :
    Follows behave ⟨l, context, .routine r, calls⟩ (Finished calls)
      (r.run poll l.view context) := by
  induction r generalizing l context with
  | finish body => exact ⟨_, .refl, l, hs, rfl, rfl⟩
  | command c next ih =>
    rw [Routine.run, hs.apply_view]
    cases ha : l.apply c with
    | error fault => exact follows_fault (congrArg (Except.map _) ha)
    | ok l' => exact .head (congrArg (Except.map _) ha) (ih context (hs.apply ha))
  | register body next ih =>
    obtain ⟨hhandle, hview⟩ := l.register_view body
    rw [Routine.run, ← hhandle, ← hview]
    exact .head rfl (ih _ context (hs.register body))
  | ask q next ih =>
    rw [Routine.run, hs.ask_view]
    cases ha : l.ask q with
    | error fault => exact follows_fault (congrArg (Except.map _) ha)
    | ok answer => exact .head (congrArg (Except.map _) ha) (ih answer context hs)
  | read next ih => exact .head rfl (ih context context hs)
  | write written next ih => exact .head rfl (ih written hs)
  | poll cycles next ih =>
    rw [run_poll]
    refine .head rfl ((hpoll l context cycles next hs).bind ?_)
    rintro ⟨s', context'⟩ m' ⟨l', hsound, rfl, rfl⟩
    exact ih context' hsound

/-- The machine does what `advance` does, up to the limit. -/
theorem follows_advance (behave : Behaviour β C) (limit : Nat) (target : Cycles) {l : Ledger β}
    (context : C) (next : Routine β C) (calls : List (Call β C)) (hs : l.Sound) :
    Follows behave ⟨l, context, .loop target next, calls⟩ (Polled next calls)
      (advance behave limit target l.view context) := by
  induction limit generalizing target l context next calls with
  | zero => exact fun hne => absurd rfl hne
  | succ limit ih =>
    by_cases hidle : ∀ e ∈ l.pending.head?, target < e.due
    · rw [advance_of_idle (s := l.view) hidle]
      refine .head (congrArg (Except.map some) (turn_of_idle hidle)) ?_
      exact ⟨_, .refl, _, hs.arrive hidle, rfl, rfl⟩
    · obtain ⟨e, rest, hpending, hdue⟩ := exists_due (s := l.view) hidle
      have hpending : l.pending = e :: rest := hpending
      have hturn : turn behave ⟨l, context, .loop target next, calls⟩ target next = _ :=
        turn_of_due hpending hdue
      rw [advance_due (s := l.view) hpending hdue, l.body?_view]
      dsimp only at hturn
      cases hbody : l.body? e.task with
      | none =>
        rw [hbody] at hturn
        exact follows_fault (congrArg (Except.map some) hturn)
      | some body =>
        rw [hbody] at hturn
        refine .head (congrArg (Except.map some) hturn) ?_
        rw [← l.takeOut_view]
        -- a poll inside the task works within what is left of the limit
        refine (follows_run ?_ (behave body e.task) context (hs.takeOut hpending)).bind ?_
        · intro l' context' cycles next' hs'
          exact ih (l'.epoch + cycles) context' next' _ hs'
        · rintro ⟨body', s', context'⟩ m' ⟨l', hsound, rfl, rfl⟩
          rw [← l'.putBack_view]
          exact .head rfl (ih target context' next calls (hsound.putBack e.task body'))

/-! ### Where a run stops -/

/-- Every state that is reached is on the way to where the run stops. -/
theorem reaches_stop {first m last : Machine β C} (h : Reaches behave first m)
    (hlast : Reaches behave first last) (hstop : ∀ m', last.step behave ≠ .ok (some m')) :
    Reaches behave m last := by
  have hunique : Relator.RightUnique fun m m' : Machine β C => m.step behave = .ok (some m') := by
    intro m m₁ m₂ h₁ h₂
    exact Option.some.inj (Except.ok.inj (h₁.symm.trans h₂))
  rcases Relation.ReflTransGen.total_of_right_unique hunique h hlast with hreaches | hreaches
  · exact hreaches
  · rcases Relation.ReflTransGen.cases_head hreaches with rfl | ⟨m', hstep, -⟩
    · exact .refl
    · exact absurd hstep (hstop m')

/-! ### Counting the steps -/

/-- The machine after `n` steps, if it gets so far. -/
def after (behave : Behaviour β C) : Nat → Machine β C → Option (Machine β C)
  | 0, m => some m
  | n + 1, m =>
    match m.step behave with
    | .ok (some m') => after behave n m'
    | _ => none

theorem reaches_of_after {n : Nat} {m m' : Machine β C} (h : after behave n m = some m') :
    Reaches behave m m' := by
  induction n generalizing m with
  | zero =>
    obtain rfl := Option.some.inj h
    exact .refl
  | succ n ih =>
    unfold after at h
    split at h
    · next hstep => exact .head hstep (ih h)
    · simp at h

theorem after_of_reaches {m m' : Machine β C} (h : Reaches behave m m') :
    ∃ n, after behave n m = some m' := by
  induction h using Relation.ReflTransGen.head_induction_on with
  | refl => exact ⟨0, rfl⟩
  | head hstep _ ih =>
    obtain ⟨n, hn⟩ := ih
    refine ⟨n + 1, ?_⟩
    rw [after, hstep]
    exact hn

theorem after_add {n : Nat} {m : Machine β C} (h : after behave n m = none) (k : Nat) :
    after behave (n + k) m = none := by
  induction n generalizing m with
  | zero => simp [after] at h
  | succ n ih =>
    rw [Nat.add_right_comm]
    unfold after at h ⊢
    split
    · next hstep =>
      rw [hstep] at h
      exact ih h
    · rfl

/-- A run of less than `n` steps can be examined state by state. -/
theorem forall_reaches_of_after {P : Machine β C → Prop} {n : Nat} {first : Machine β C}
    (hend : after behave n first = none)
    (h : ∀ k < n, ∀ m ∈ after behave k first, P m) {m : Machine β C}
    (hm : Reaches behave first m) : P m := by
  obtain ⟨k, hk⟩ := after_of_reaches hm
  by_cases hlt : k < n
  · exact h k hlt m hk
  · obtain ⟨extra, rfl⟩ := Nat.exists_eq_add_of_le (Nat.not_lt.mp hlt)
    rw [after_add hend extra] at hk
    simp at hk

/-! ### The books of a run -/

/-- **The pending occurrences and the slots agree in every state of a run, and the answers are
accurate.**  That holds between the requests of a host, inside its tasks, and inside the tasks that
fire when a task advances the clock itself, as long as no request breaks the contract.  The machine
comes to the end, or to the fault, of every run of the host. -/
theorem slots_agree_with_pending (behave : Behaviour β C) (host : Routine β C) (context : C) :
    (∀ m, Reaches behave (start host context) m →
      (∀ task due turn,
        m.ledger.due? task = some (due, turn) ↔ ⟨due, turn, task⟩ ∈ m.ledger.pending) ∧
      m.ledger.pending.Pairwise (fun e f => e.task ≠ f.task ∧ e.turn ≠ f.turn) ∧
      (∀ e ∈ m.ledger.pending,
        e.turn < m.ledger.turns ∧ m.ledger.Owns e.task ∧ m.ledger.epoch ≤ e.due) ∧
      m.ledger.Accurate) ∧
    ∀ limit, Follows behave (start host context) (Finished [])
      (host.run (Scheduler.poll behave limit) {} context) := by
  constructor
  · intro m hreaches
    have hsound := sound_of_reaches hreaches
    refine ⟨hsound.agrees, hsound.orderly.single.and hsound.distinct, ?_, hsound.accurate⟩
    intro e he
    have howns := Ledger.owns_view.mp (hsound.orderly.owned e he)
    exact ⟨hsound.orderly.turn_lt e he, howns, hsound.ahead e he⟩
  · intro limit
    rw [← Ledger.view_new]
    refine follows_run ?_ host context .new
    intro l context cycles next hs
    exact follows_advance behave limit (l.epoch + cycles) context next [] hs

/-- A task that arms itself again, and then advances the clock by what its body says. -/
def nesting : Behaviour Cycles Unit := fun ahead task =>
  .command (.arm task 20) (if ahead = 0 then .finish ahead else .poll ahead (.finish ahead))

/-- Two such tasks, of which the second falls due while the first waits in a poll. -/
def nestingHost (cycles : Cycles) : Routine Cycles Unit :=
  .register 10 fun first => .register 0 fun second => .command (.arm first 1)
    (.command (.arm second 5) (.poll cycles (.finish 0)))

/-- Inside the second task two polls are waiting. -/
theorem slots_agree_with_pending_nesting :
    ∃ m, Reaches nesting (start (nestingHost 2) ()) m ∧ m.calls.map Call.target = [11, 2] ∧
      m.ledger.epoch = 5 ∧ m.ledger.pending = [⟨21, 2, ⟨0⟩⟩, ⟨25, 3, ⟨1⟩⟩] ∧
      m.ledger.due? ⟨0⟩ = some (21, 2) ∧ m.ledger.Accurate ∧
      Follows nesting (start (nestingHost 2) ()) (Finished [])
        ((nestingHost 2).run (Scheduler.poll nesting 9) {} ()) := by
  obtain ⟨hkept, hfollows⟩ := slots_agree_with_pending nesting (nestingHost 2) ()
  have hreaches : Reaches nesting (start (nestingHost 2) ()) _ := reaches_of_after (n := 10) rfl
  obtain ⟨hagrees, -, -, haccurate⟩ := hkept _ hreaches
  exact ⟨_, hreaches, rfl, rfl, rfl, (hagrees _ _ _).mpr List.mem_cons_self, haccurate, hfollows 9⟩

end Machine

end Cassette.Scheduler
