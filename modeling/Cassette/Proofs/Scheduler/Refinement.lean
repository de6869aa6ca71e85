import Cassette.Proofs.Scheduler.Bag
import Cassette.Proofs.Scheduler.Firing

/-!
# The scheduler refines the bag

The agenda of a scheduler holds what the bag holds, only in order.  Requests have the same
answers and the same faults, and their effects keep the two together.  The head of the agenda
is the first occurrence in the bag, so that both fire the same tasks, one after another, and
every routine of a host has the same effect on both.

## Main definitions

* `Matches R` — two runs whose results are related by `R`, or that stop alike.
* `Refines away` — the scheduler holds what the bag holds, the body of the running task apart.

## Main results

* `Refines.command`, `Refines.ask` — requests.
* `earliest?_of_perm` — the head of the agenda is the first occurrence in the bag.
* `Refines.advance` — advancing the clock.
* `Refines.run` — **a routine has the same effect on the scheduler and on the bag**.
-/

namespace Cassette.Scheduler

variable {β C : Type}

/-- Two runs whose results are related by `R`, or that stop with the same report. -/
inductive Matches {ε σ τ : Type} (R : σ → τ → Prop) : Except ε σ → Except ε τ → Prop where
  | ok {a : σ} {b : τ} (h : R a b) : Matches R (.ok a) (.ok b)
  | error (report : ε) : Matches R (.error report) (.error report)

/-- What a poll is to a routine that has none, over a bag. -/
abbrev noReplay : Cycles → Bag β → C → Except (Fault × C) (Bag β × C) :=
  fun _ _ context => .error (.overrun, context)

theorem Routine.PollFree.replay_eq_noReplay
    {poll : Cycles → Bag β → C → Except (Fault × C) (Bag β × C)} {routine : Routine β C}
    (h : routine.PollFree) (r : Bag β) (context : C) :
    routine.replay poll r context = routine.replay noReplay r context := by
  induction h generalizing r context with
  | finish body => rfl
  | command c _ ih =>
    unfold Routine.replay
    cases r.command c with
    | ok r => exact ih r context
    | error fault => rfl
  | register body _ ih => exact ih _ _ context
  | ask q _ ih =>
    unfold Routine.replay
    cases r.ask q with
    | ok answer => exact ih answer r context
    | error fault => rfl
  | read _ ih => exact ih context r context
  | write written _ ih => exact ih r written

/-- The scheduler holds what the bag holds, the body of the running task `away` apart. -/
structure Refines (away : Option Handle) (s : Scheduler β) (r : Bag β) : Prop where
  orderly : s.Orderly
  epoch : s.epoch = r.epoch
  turns : s.turns = r.armings
  armed : s.agenda.Perm r.armed
  size : s.bodies.size = r.bodies.size
  bodies : ∀ task, away ≠ some task → s.body? task = r.bodies[task.index]?

/-- Between two firings the scheduler holds what the bag holds, and the contexts are equal. -/
def Agree (x : Scheduler β × C) (y : Bag β × C) : Prop := Refines none x.1 y.1 ∧ x.2 = y.2

/-- The routines end with the same body and context, and keep the two together. -/
def Conclude (away : Option Handle) (x : β × Scheduler β × C) (y : β × Bag β × C) : Prop :=
  x.1 = y.1 ∧ Refines away x.2.1 y.2.1 ∧ x.2.2 = y.2.2

namespace Refines

variable {away : Option Handle} {s : Scheduler β} {r : Bag β}

theorem new : Refines none ({} : Scheduler β) {} :=
  ⟨.new, rfl, rfl, .refl _, rfl, fun _ _ => rfl⟩

/-! ### Requests -/

theorem owns (h : Refines away s r) (task : Handle) : r.Owns task ↔ s.Owns task := by
  unfold Bag.Owns Owns
  rw [h.size]

theorem occurrence? (h : Refines away s r) (task : Handle) :
    s.occurrence? task = r.occurrence? task := by
  have hsingle : r.armed.Pairwise fun e f => e.task ≠ f.task :=
    (h.armed.pairwise_iff fun hne => hne.symm).mp h.orderly.single
  apply Option.ext
  intro e
  unfold Scheduler.occurrence? Bag.occurrence?
  rw [find?_task h.orderly.single, find?_task hsingle, h.armed.mem_iff]

theorem without (h : Refines away s r) (task : Handle) :
    Refines away (s.dismiss task) (r.without task) where
  orderly := h.orderly.dismiss task
  epoch := h.epoch
  turns := h.turns
  armed := h.armed.filter _
  size := h.size
  bodies := h.bodies

theorem replacing (h : Refines away s r) {task : Handle} (hown : s.Owns task) (delay : Cycles) :
    Refines away ((s.dismiss task).place task delay) (r.replacing task delay) where
  orderly := (h.orderly.dismiss task).place hown (fun _ he => (mem_agenda_dismiss.mp he).2) delay
  epoch := h.epoch
  turns := congrArg (· + 1) h.turns
  armed := by
    refine (enter_perm _ _).trans ?_
    have hnew : (⟨(s.dismiss task).epoch + delay, (s.dismiss task).turns, task⟩ : Entry)
        = ⟨r.epoch + delay, r.armings, task⟩ := by
      rw [← h.epoch, ← h.turns]
      rfl
    rw [hnew]
    exact (h.without task).armed.cons _
  size := h.size
  bodies := h.bodies

theorem register (h : Refines away s r) (body : β) :
    (s.register body).1 = (r.register body).1 ∧
      Refines away (s.register body).2 (r.register body).2 := by
  refine ⟨congrArg Handle.mk h.size, h.orderly.register body, h.epoch, h.turns, h.armed, ?_, ?_⟩
  · change (s.bodies.push (some body)).size = (r.bodies.push body).size
    rw [Array.size_push, Array.size_push, h.size]
  · intro task hne
    change ((s.bodies.push (some body))[task.index]?).join = (r.bodies.push body)[task.index]?
    rw [Array.getElem?_push, Array.getElem?_push, h.size]
    split
    · rfl
    · exact h.bodies task hne

/-- A command has the same effect on both, or breaks the contract of both alike. -/
theorem command (h : Refines away s r) (c : Command) :
    Matches (Refines away) (c.apply s) (r.command c) := by
  unfold Bag.command
  cases c with
  | arm task delay =>
    simp only [Command.apply, arm_eq, Bag.breach?, Bag.effect, h.owns task]
    by_cases hd : delay = 0
    · simp only [hd, if_true]
      exact .error _
    · by_cases hown : s.Owns task
      · simp only [hd, hown, if_true, if_false]
        exact .ok (h.replacing hown delay)
      · simp only [hd, hown, if_false]
        exact .error _
  | rearm task delay =>
    simp only [Command.apply, rearm_eq, Bag.breach?, Bag.effect, h.owns task]
    by_cases hown : s.Owns task
    · by_cases hd : delay = 0
      · simp only [hd, hown, if_true]
        exact .error _
      · simp only [hd, hown, if_true, if_false]
        exact .ok (h.replacing hown delay)
    · simp only [hown, if_false]
      exact .error _
  | keepArmed task run delay =>
    simp only [Command.apply, keepArmed_eq, Bag.breach?, h.owns task, ← h.occurrence? task]
    by_cases hown : s.Owns task
    · cases run with
      | false =>
        simp only [hown, if_true, Bool.false_eq_true, false_and, if_false, Bag.effect]
        exact .ok (h.without task)
      | true =>
        simp only [hown, if_true, true_and, Bag.effect, ← h.occurrence? task]
        cases s.occurrence? task with
        | some e => exact .ok h
        | none =>
          by_cases hd : delay = 0
          · simp [hd]
            exact .error _
          · simp [hd]
            exact .ok (h.replacing hown delay)
    · simp only [hown, if_false]
      exact .error _
  | cancel task =>
    simp only [Command.apply, Scheduler.cancel, Bag.breach?, Bag.effect, h.owns task]
    by_cases hown : s.Owns task
    · simp only [hown, if_true]
      exact .ok (h.without task)
    · simp only [hown, if_false]
      exact .error _

end Refines

/-! ### The first occurrence -/

theorem mem_of_earliest? {e : Entry} {entries : List Entry}
    (h : Bag.earliest? entries = some e) : e ∈ entries := by
  induction entries generalizing e with
  | nil => simp [Bag.earliest?] at h
  | cons f entries ih =>
    unfold Bag.earliest? at h
    split at h
    · rw [Option.some.inj h]
      exact List.mem_cons_self
    · next g hg =>
      split at h
      · rw [← Option.some.inj h]
        exact List.mem_cons_of_mem f (ih hg)
      · rw [Option.some.inj h]
        exact List.mem_cons_self

/-- An entry before all the others is the one that the search ends with. -/
theorem earliest?_eq_some {e : Entry} {entries : List Entry} (he : e ∈ entries)
    (hfirst : ∀ f ∈ entries, f = e ∨ e.before f = true) : Bag.earliest? entries = some e := by
  induction entries with
  | nil => simp at he
  | cons f entries ih =>
    have hrest : ∀ g ∈ entries, g = e ∨ e.before g = true :=
      fun g hg => hfirst g (List.mem_cons_of_mem f hg)
    unfold Bag.earliest?
    by_cases hmem : e ∈ entries
    · rw [ih hmem hrest]
      rcases hfirst f List.mem_cons_self with rfl | hf
      · simp
      · simp [hf]
    · have hfe : f = e := by
        rcases List.mem_cons.mp he with rfl | he
        · rfl
        · exact absurd he hmem
      subst hfe
      split
      · rfl
      · next g hg =>
        have hgmem := mem_of_earliest? hg
        rcases hrest g hgmem with rfl | hbefore
        · exact absurd hgmem hmem
        · have hnot : ¬ g.before f = true := fun h => by
            have := Entry.before_trans h hbefore
            rw [Entry.before_irrefl] at this
            simp at this
          rw [if_neg hnot]

/-- The first occurrence in a bag is the head of an agenda with the same entries. -/
theorem earliest?_of_perm {agenda armed : List Entry}
    (hsorted : agenda.Pairwise fun e f => e.before f = true) (h : agenda.Perm armed) :
    Bag.earliest? armed = agenda.head? := by
  cases agenda with
  | nil =>
    rw [List.nil_perm.mp h]
    rfl
  | cons e rest =>
    rw [List.pairwise_cons] at hsorted
    refine earliest?_eq_some (h.mem_iff.mp List.mem_cons_self) ?_
    intro f hf
    rcases List.mem_cons.mp (h.mem_iff.mpr hf) with rfl | hf
    · exact Or.inl rfl
    · exact Or.inr (hsorted.1 f hf)

namespace Refines

variable {away : Option Handle} {s : Scheduler β} {r : Bag β}

theorem earliest? (h : Refines away s r) : Bag.earliest? r.armed = s.agenda.head? :=
  earliest?_of_perm h.orderly.sorted h.armed

/-- A question has the same answer on both. -/
theorem ask (h : Refines away s r) (q : Query) : q.ask s = r.ask q := by
  cases q with
  | epoch => exact congrArg Except.ok h.epoch
  | pending => exact congrArg Except.ok h.armed.length_eq
  | headroom =>
    change Except.ok s.headroom = Except.ok _
    rw [h.earliest?, ← h.epoch]
    rfl
  | isArmed task =>
    simp only [Query.ask, isArmed, Bag.ask, h.owns task, h.occurrence? task]
    rfl
  | remaining task =>
    simp only [Query.ask, remaining, Bag.ask, h.owns task, h.occurrence? task, h.epoch]
    rfl

/-! ### Routines -/

/-- **A routine has the same effect on the scheduler and on the bag**, if what its polls do is
the same. -/
theorem run {poll : Cycles → Scheduler β → C → Except (Fault × C) (Scheduler β × C)}
    {poll' : Cycles → Bag β → C → Except (Fault × C) (Bag β × C)}
    (hpoll : ∀ {s : Scheduler β} {r : Bag β} (cycles : Cycles) (context : C), Refines away s r →
      Matches (fun x y => Refines away x.1 y.1 ∧ x.2 = y.2)
        (poll cycles s context) (poll' cycles r context))
    (routine : Routine β C) {s : Scheduler β} {r : Bag β} (h : Refines away s r) (context : C) :
    Matches (Conclude away) (routine.run poll s context) (routine.replay poll' r context) := by
  induction routine generalizing s r context with
  | finish body => exact .ok ⟨rfl, h, rfl⟩
  | command c next ih =>
    unfold Routine.run Routine.replay
    have hc := h.command c
    generalize c.apply s = x at hc
    generalize r.command c = y at hc
    cases hc with
    | ok h => exact ih h context
    | error fault => exact .error _
  | register body next ih =>
    obtain ⟨htask, h⟩ := h.register body
    unfold Routine.run Routine.replay
    rw [← htask]
    exact ih _ h context
  | ask q next ih =>
    unfold Routine.run Routine.replay
    rw [← h.ask q]
    cases q.ask s with
    | ok answer => exact ih answer h context
    | error fault => exact .error _
  | read next ih => exact ih context h context
  | write written next ih => exact ih h written
  | poll cycles next ih =>
    unfold Routine.run Routine.replay
    have hp := hpoll cycles context h
    generalize poll cycles s context = x at hp
    generalize poll' cycles r context = y at hp
    cases hp with
    | ok h =>
      obtain ⟨h, hcontext⟩ := h
      simp only [hcontext]
      exact ih h _
    | error stop => exact .error _

/-! ### The passing of time -/

theorem takeOut (h : Refines none s r) {e : Entry} {rest : List Entry}
    (hs : s.agenda = e :: rest) : Refines (some e.task) (s.takeOut e) (r.takeOut e) where
  orderly := h.orderly.takeOut e
  epoch := rfl
  turns := h.turns
  armed := by
    -- no other entry is for the task of `e`, so to take the task out takes out `e` alone
    have hsingle := h.orderly.single
    have harmed := h.armed
    rw [hs] at hsingle harmed
    rw [List.pairwise_cons] at hsingle
    have hrest : (e :: rest).filter (·.task ≠ e.task) = rest := by
      rw [List.filter_cons, if_neg (by simp), List.filter_eq_self]
      intro f hf
      simpa using (hsingle.1 f hf).symm
    have hfilter := harmed.filter (·.task ≠ e.task)
    rw [hrest] at hfilter
    change s.agenda.tail.Perm (r.armed.filter (·.task ≠ e.task))
    rw [hs]
    exact hfilter
  size := by
    change (s.bodies.setIfInBounds e.task.index none).size = r.bodies.size
    rw [Array.size_setIfInBounds, h.size]
  bodies := by
    intro task hne
    have hindex : e.task.index ≠ task.index :=
      fun heq => hne (congrArg some (Handle.eq_of_index heq))
    change ((s.bodies.setIfInBounds e.task.index none)[task.index]?).join = r.bodies[task.index]?
    rw [Array.getElem?_setIfInBounds_ne hindex]
    exact h.bodies task (by simp)

theorem keep {task : Handle} (h : Refines (some task) s r) (body : β) :
    Refines none (s.putBack task body) (r.keep task body) where
  orderly := h.orderly.putBack task body
  epoch := h.epoch
  turns := h.turns
  armed := h.armed
  size := by
    change (s.bodies.setIfInBounds task.index (some body)).size
      = (r.bodies.setIfInBounds task.index body).size
    rw [Array.size_setIfInBounds, Array.size_setIfInBounds, h.size]
  bodies := by
    intro other _
    change ((s.bodies.setIfInBounds task.index (some body))[other.index]?).join
      = (r.bodies.setIfInBounds task.index body)[other.index]?
    rw [Array.getElem?_setIfInBounds, Array.getElem?_setIfInBounds, h.size]
    by_cases heq : task.index = other.index
    · rw [if_pos heq, if_pos heq]
      split <;> rfl
    · rw [if_neg heq, if_neg heq]
      exact h.bodies other fun ht => heq (congrArg Handle.index (Option.some.inj ht))

variable {behave : Behaviour β C}

/-- The clock advances alike, whatever the limit. -/
theorem advance (hb : NeverPoll behave) (limit : Nat) (target : Cycles) (h : Refines none s r)
    (context : C) :
    Matches Agree (Scheduler.advance behave limit target s context)
      (Bag.advance behave limit target r context) := by
  induction limit generalizing s r context with
  | zero => exact .error _
  | succ limit ih =>
    unfold Bag.advance
    rw [h.earliest?]
    by_cases hidle : ∀ e ∈ s.agenda.head?, target < e.due
    · have hnone : s.agenda.head?.filter (fun e => ¬ target < e.due) = none := by
        rw [Option.filter_eq_none_iff]
        intro e he
        simp [hidle e he]
      rw [advance_of_idle hidle, hnone]
      exact .ok ⟨⟨h.orderly.setEpoch target, rfl, h.turns, h.armed, h.size, h.bodies⟩, rfl⟩
    · -- both sides fire the head of the agenda
      obtain ⟨e, rest, hs, hdue⟩ := exists_due hidle
      have hsome : s.agenda.head?.filter (fun e => ¬ target < e.due) = some e := by
        rw [hs]
        simp [hdue]
      rw [advance_cons hb hs hdue, hsome]
      have hlt : e.task.index < r.bodies.size :=
        (h.owns e.task).mpr (h.orderly.owned e (by rw [hs]; exact List.mem_cons_self))
      have hbody : r.bodies[e.task.index]? = some r.bodies[e.task.index] :=
        Array.getElem?_eq_getElem hlt
      simp only [fire, h.bodies e.task (by simp), hbody]
      generalize r.bodies[e.task.index] = body
      -- the task does not poll, so both sides run it without
      rw [(hb body e.task).replay_eq_noReplay]
      have hrun : Matches (Conclude (some e.task))
          ((behave body e.task).run noPoll (s.takeOut e) context)
          ((behave body e.task).replay noReplay (r.takeOut e) context) :=
        (h.takeOut hs).run (fun _ context _ => .error (Fault.overrun, context)) _ context
      generalize (behave body e.task).run noPoll (s.takeOut e) context = x at hrun
      generalize (behave body e.task).replay noReplay (r.takeOut e) context = y at hrun
      cases hrun with
      | error stop => exact .error _
      | ok hend =>
        obtain ⟨hbody, h, hcontext⟩ := hend
        simp only [hbody, hcontext]
        exact ih (h.keep _) _

/-- A poll has the same effect on both. -/
theorem poll (hb : NeverPoll behave) (limit : Nat) (cycles : Cycles) (h : Refines none s r)
    (context : C) :
    Matches Agree (Scheduler.poll behave limit cycles s context)
      (Bag.poll behave limit cycles r context) := by
  unfold Scheduler.poll Bag.poll
  rw [h.epoch]
  exact h.advance hb limit _ context

end Refines

end Cassette.Scheduler
