import Cassette.Proofs.Scheduler.Machine

/-!
# Nested polls and the clock

A poll fixes its target before its tasks run, and once they have run it sets the clock to that
target, wherever the clock stands by then.  A task that advances the clock itself may take it
beyond the target of the poll that waits for it, and that poll then puts the clock back.  The fault
for polls inside tasks does not stand in the way: it is raised only if such a poll comes to a task
that is itself running.

So the clock runs forward as long as every poll stays within those that wait for it, as it does if
no task advances the clock at all; and in a run that comes to its end it does not otherwise.

## Main definitions

* `Machine.targets` — the targets of the polls that are not over, the innermost first.
* `Machine.Contained` — no poll of a run aims beyond one that waits for it.
* `Machine.Forward` — the clock never goes back in a run.
* `Machine.Ends` — a run comes to its end.

## Main results

* `clock_set_back` — the clock may go back, and the run ends as if nothing were wrong.
* `forward_iff_contained` — **a clock runs forward exactly where polls are contained.**
* `forward_of_neverPoll` — a clock that no task advances never goes back.
-/

namespace Cassette.Scheduler

variable {β C : Type}

namespace Machine

variable {behave : Behaviour β C} {host : Routine β C} {context : C}

/-- The targets of the polls that are not over, the innermost first. -/
def targets (m : Machine β C) : List Cycles :=
  match m.doing with
  | .routine _ => m.calls.map Call.target
  | .loop target _ => target :: m.calls.map Call.target

/-- In no state does a poll aim beyond one that waits for it. -/
def Contained (behave : Behaviour β C) (host : Routine β C) (context : C) : Prop :=
  ∀ m, Reaches behave (start host context) m → m.targets.Pairwise (· ≤ ·)

/-- In no state does the clock show less than it did in one before. -/
def Forward (behave : Behaviour β C) (host : Routine β C) (context : C) : Prop :=
  ∀ m m', Reaches behave (start host context) m → Reaches behave m m' →
    m.ledger.epoch ≤ m'.ledger.epoch

/-- The run comes to its end, without a fault. -/
def Ends (behave : Behaviour β C) (host : Routine β C) (context : C) : Prop :=
  ∃ m, Reaches behave (start host context) m ∧ m.step behave = .ok none

/-! ### Contained polls -/

/-- The clock has passed no target. -/
def Within (m : Machine β C) : Prop := ∀ target ∈ m.targets, m.ledger.epoch.count ≤ target.count

/-- From a state with contained polls no step takes the clock back, or beyond a target. -/
theorem Move.forward {m m' : Machine β C} (h : Move behave m m') (hs : m.ledger.Sound)
    (hin : m.Within) (hc : m.targets.Pairwise (· ≤ ·)) :
    m.ledger.epoch.count ≤ m'.ledger.epoch.count ∧ m'.Within := by
  cases h with
  | @serve l l' _ _ _ _ calls hledger _ =>
    have hepoch : l'.epoch = l.epoch := by
      rcases hledger with rfl | ⟨c, ha⟩ | ⟨body, rfl⟩
      · rfl
      · exact Ledger.epoch_of_apply ha
      · rfl
    refine ⟨Nat.le_of_eq (congrArg Cycles.count hepoch.symm), ?_⟩
    intro target htarget
    change l'.epoch.count ≤ target.count
    rw [hepoch]
    exact hin target htarget
  | poll l context cycles next calls =>
    refine ⟨Nat.le_refl _, ?_⟩
    intro target htarget
    rcases List.mem_cons.mp htarget with rfl | htarget
    · exact count_le_add l.epoch cycles
    · exact hin target htarget
  | @arrive l target context next calls hidle =>
    refine ⟨hin target List.mem_cons_self, ?_⟩
    intro outer houter
    exact (List.pairwise_cons.mp hc).1 outer houter
  | @fire l target e rest context next calls body hpending hdue =>
    have he : e ∈ l.pending := by rw [hpending]; exact List.mem_cons_self
    have hle : e.due.count ≤ target.count := Nat.le_of_not_lt hdue
    refine ⟨hs.ahead e he, ?_⟩
    intro outer houter
    change e.due.count ≤ outer.count
    rcases List.mem_cons.mp houter with rfl | houter
    · exact hle
    · exact Nat.le_trans hle ((List.pairwise_cons.mp hc).1 outer houter)
  | resume l context body call calls => exact ⟨Nat.le_refl _, hin⟩

theorem within_of_reaches (hc : Contained behave host context) {m : Machine β C}
    (h : Reaches behave (start host context) m) : m.Within := by
  induction h with
  | refl => exact fun target htarget => by simp [targets, start] at htarget
  | tail hreaches hstep ih =>
    exact ((move_of_step hstep).forward (sound_of_reaches hreaches) ih (hc _ hreaches)).2

theorem Contained.forward (hc : Contained behave host context) : Forward behave host context := by
  intro m m' hm hm'
  induction hm' with
  | refl => exact Nat.le_refl _
  | tail hreaches hstep ih =>
    have hreaches := hm.trans hreaches
    have hmove := (move_of_step hstep).forward (sound_of_reaches hreaches)
      (within_of_reaches hc hreaches) (hc _ hreaches)
    exact Nat.le_trans ih hmove.1

/-! ### The stack of targets -/

/-- A step leaves the targets alone, adds one, or sets the clock to the innermost and drops it. -/
theorem Move.targets_cases {m m' : Machine β C} (h : Move behave m m') :
    m'.targets = m.targets ∨ (∃ target, m'.targets = target :: m.targets) ∨
      m.targets = m'.ledger.epoch :: m'.targets := by
  cases h with
  | serve | fire | resume => exact Or.inl rfl
  | poll => exact Or.inr (Or.inl ⟨_, rfl⟩)
  | arrive => exact Or.inr (Or.inr rfl)

theorem targets_of_end {m : Machine β C} (h : m.step behave = .ok none) : m.targets = [] := by
  obtain ⟨l, context, doing, calls⟩ := m
  cases doing with
  | loop target next =>
    obtain ⟨_, -, hsome⟩ := map_ok h
    simp at hsome
  | routine r =>
    cases r with
    | finish body =>
      cases calls with
      | nil => rfl
      | cons call calls => simp [step] at h
    | command c next =>
      obtain ⟨_, -, hsome⟩ := map_ok h
      simp at hsome
    | ask q next =>
      obtain ⟨_, -, hsome⟩ := map_ok h
      simp at hsome
    | register | read | write | poll => simp [step] at h

/-- In a run that comes to its end every poll comes to its own, and then the clock shows its
target. -/
theorem exists_arrival {m last : Machine β C} (h : Reaches behave m last)
    (hlast : last.targets = []) {front rest : List Cycles} {target : Cycles}
    (htargets : m.targets = front ++ target :: rest) :
    ∃ m', Reaches behave m m' ∧ Reaches behave m' last ∧ m'.ledger.epoch = target ∧
      m'.targets = rest := by
  induction h using Relation.ReflTransGen.head_induction_on generalizing front with
  | refl =>
    rw [hlast] at htargets
    simp at htargets
  | @head m m₁ hstep hrest ih =>
    rcases (move_of_step hstep).targets_cases with hsame | ⟨inner, hpush⟩ | hpop
    · obtain ⟨m', hreaches, hafter⟩ := ih (hsame.trans htargets)
      exact ⟨m', .head hstep hreaches, hafter⟩
    · have hpush : m₁.targets = (inner :: front) ++ target :: rest := by rw [hpush, htargets]; rfl
      obtain ⟨m', hreaches, hafter⟩ := ih hpush
      exact ⟨m', .head hstep hreaches, hafter⟩
    · rw [htargets] at hpop
      cases front with
      | nil =>
        obtain ⟨hepoch, htail⟩ := List.cons.inj hpop
        exact ⟨m₁, .single hstep, hrest, hepoch.symm, htail.symm⟩
      | cons inner front =>
        obtain ⟨m', hreaches, hafter⟩ := ih (List.cons.inj hpop).2.symm
        exact ⟨m', .head hstep hreaches, hafter⟩

/-- Every state that is reached is on the way to the end. -/
theorem reaches_end {first m last : Machine β C} (h : Reaches behave first m)
    (hlast : Reaches behave first last) (hend : last.step behave = .ok none) :
    Reaches behave m last :=
  reaches_stop h hlast fun m' hstep => by simp [hend] at hstep

theorem Forward.contained (hf : Forward behave host context) (he : Ends behave host context) :
    Contained behave host context := by
  obtain ⟨last, hlast, hend⟩ := he
  intro m hm
  have hrest := reaches_end hm hlast hend
  have htargets := targets_of_end hend
  -- a poll ends at its target, and those that wait for it end after it
  suffices h : ∀ front targets, m.targets = front ++ targets → targets.Pairwise (· ≤ ·) from
    h [] m.targets rfl
  intro front targets
  induction targets generalizing front with
  | nil => exact fun _ => .nil
  | cons inner targets ih =>
    intro heq
    refine List.pairwise_cons.mpr ⟨?_, ih (front ++ [inner]) (by simp [heq])⟩
    intro outer houter
    obtain ⟨between, rest, rfl⟩ := List.append_of_mem houter
    obtain ⟨m₁, hm₁, hrest₁, rfl, htargets₁⟩ := exists_arrival hrest htargets heq
    obtain ⟨m₂, hm₂, -, rfl, -⟩ := exists_arrival hrest₁ htargets htargets₁
    exact hf m₁ m₂ (hm.trans hm₁) hm₂

/-! ### Tasks that make no polls -/

/-- At most one poll waits, and the task that it waits for makes none. -/
def Flat (m : Machine β C) : Prop :=
  m.calls = [] ∨ ∃ call r, m.calls = [call] ∧ m.doing = .routine r ∧ r.PollFree

theorem Move.flat (hb : NeverPoll behave) {m m' : Machine β C} (h : Move behave m m')
    (hm : m.Flat) : m'.Flat := by
  rcases hm with hnil | ⟨call, r, hcalls, hdoing, hfree⟩
  · cases h with
    | serve | poll | arrive => exact Or.inl hnil
    | fire context next calls body hpending hdue =>
      refine Or.inr ⟨_, _, congrArg _ hnil, rfl, hb body _⟩
    | resume => simp at hnil
  · cases h with
    | serve calls hledger hnext =>
      obtain rfl := Doing.routine.inj hdoing
      exact Or.inr ⟨call, _, hcalls, rfl, hnext hfree⟩
    | poll =>
      obtain rfl := Doing.routine.inj hdoing
      cases hfree
    | arrive | fire => simp at hdoing
    | resume => exact Or.inl (List.cons.inj hcalls).2

theorem flat_of_neverPoll (hb : NeverPoll behave) {m : Machine β C}
    (h : Reaches behave (start host context) m) : m.Flat := by
  induction h with
  | refl => exact Or.inl rfl
  | tail _ hstep ih => exact (move_of_step hstep).flat hb ih

/-- Polls are contained if no task makes one. -/
theorem contained_of_neverPoll (hb : NeverPoll behave) (host : Routine β C) (context : C) :
    Contained behave host context := by
  intro m hm
  unfold targets
  rcases flat_of_neverPoll hb hm with hnil | ⟨call, r, hcalls, hdoing, -⟩
  · rw [hnil]
    cases m.doing with
    | routine => exact .nil
    | loop target => exact List.pairwise_singleton _ target
  · rw [hcalls, hdoing]
    exact List.pairwise_singleton _ call.target

/-- A clock that no task advances never goes back. -/
theorem forward_of_neverPoll (hb : NeverPoll behave) (host : Routine β C) (context : C) :
    Forward behave host context :=
  (contained_of_neverPoll hb host context).forward

/-! ### When the clock runs forward -/

/-- Whether the polls of a run of less than `n` steps are contained can be decided. -/
theorem contained_of_after {n : Nat} (hend : after behave n (start host context) = none)
    (h : ∀ k < n, ∀ m ∈ after behave k (start host context), m.targets.Pairwise (· ≤ ·)) :
    Contained behave host context :=
  fun _ hm => forall_reaches_of_after hend h hm

/-- **A clock runs forward exactly where polls are contained.**  If no poll of a run, nested polls
included, aims beyond one that waits for it, the clock never goes back, whether or not the run comes
to its end; and if it comes to its end and the clock never went back, no poll did. -/
theorem forward_iff_contained (behave : Behaviour β C) (host : Routine β C) (context : C) :
    (Contained behave host context → Forward behave host context) ∧
      (Ends behave host context →
        (Forward behave host context ↔ Contained behave host context)) :=
  ⟨Contained.forward, fun he => ⟨fun hf => hf.contained he, Contained.forward⟩⟩

/-- A poll of ten cycles inside one of fifteen. -/
theorem forward_iff_contained_nesting :
    (∃ m, Reaches nesting (start (nestingHost 15) ()) m ∧ m.targets = [11, 15]) ∧
      Contained nesting (nestingHost 15) () ∧ Ends nesting (nestingHost 15) () ∧
      Forward nesting (nestingHost 15) () := by
  have hcontained : Contained nesting (nestingHost 15) () :=
    contained_of_after (n := 15) rfl (by decide)
  have hends : Ends nesting (nestingHost 15) () := ⟨_, reaches_of_after (n := 14) rfl, rfl⟩
  obtain ⟨hforward, hiff⟩ := forward_iff_contained nesting (nestingHost 15) ()
  refine ⟨⟨_, reaches_of_after (n := 10) rfl, rfl⟩, ?_, hends, hforward hcontained⟩
  exact (hiff hends).mp (hforward hcontained)

/-- A task that notes the cycle, advances the clock by ten cycles and notes the cycle again. -/
def meddling : Behaviour Unit (List Cycles) := fun _ _ =>
  .ask .epoch fun (now : Cycles) => .update (now :: ·) (.poll 10
    (.ask .epoch fun (now : Cycles) => .update (now :: ·) (.finish ())))

/-- A host that arms it for the next cycle and advances the clock by two. -/
def meddlingHost : Routine Unit (List Cycles) :=
  .register () fun task => .command (.arm task 1) (.poll 2 (.finish ()))

/-- The clock may go back: the task finds cycles 1 and 11, and when the host's poll is over the
clock shows cycle 2. -/
theorem clock_set_back :
    ¬ Forward meddling meddlingHost [] ∧
      ∃ s, meddlingHost.run (Scheduler.poll meddling 9) {} [] = .ok ((), s, [11, 1]) ∧
        s.epoch = 2 := by
  refine ⟨?_, _, rfl, rfl⟩
  intro h
  have hle : (11 : Cycles) ≤ 2 :=
    h _ _ (reaches_of_after (n := 9) rfl) (reaches_of_after (n := 5) rfl)
  exact absurd hle (by decide)

end Machine

end Cassette.Scheduler
