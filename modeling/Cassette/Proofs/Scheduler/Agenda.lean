import Cassette.Scheduler.Routine

/-!
# The agenda in order

Whatever is asked of a scheduler, its agenda stays in the order of firing, holds no task
twice and only tasks of its own, and no turn is given out again.  A command does one of
three things to it: nothing, take a task off, or put a task on afresh.

## Main definitions

* `Scheduler.Orderly` — what holds of the agenda at all times.

## Main results

* `apply_cases` — the three things that a command can do.
* `Orderly.apply`, `Orderly.register` — every request keeps the agenda orderly.
* `occurrence?_place`, `occurrence?_dismiss` — which occurrences there are afterwards.
-/

namespace Cassette

/-! ### The order of firing -/

namespace Entry

theorem before_iff {e f : Entry} :
    e.before f = true ↔
      e.due.count < f.due.count ∨ e.due.count = f.due.count ∧ e.turn < f.turn := by
  unfold before
  rw [Bool.or_eq_true, Bool.and_eq_true, decide_eq_true_eq, decide_eq_true_eq,
    decide_eq_true_eq, Cycles.lt_iff]
  constructor
  · rintro (h | ⟨h, ht⟩)
    · exact Or.inl h
    · exact Or.inr ⟨by rw [h], ht⟩
  · rintro (h | ⟨h, ht⟩)
    · exact Or.inl h
    · exact Or.inr ⟨Cycles.ext h, ht⟩

theorem before_trans {e f g : Entry} (hef : e.before f = true) (hfg : f.before g = true) :
    e.before g = true := by
  rw [before_iff] at *
  omega

theorem before_irrefl (e : Entry) : e.before e = false := by
  rw [Bool.eq_false_iff, ne_eq, before_iff]
  omega

/-- Of two entries with different turns one comes first. -/
theorem before_of_not_before {e f : Entry} (h : ¬ e.before f = true) (ht : e.turn ≠ f.turn) :
    f.before e = true := by
  rw [before_iff] at *
  omega

/-- The entry without its turn. -/
def unturned (e : Entry) : Entry := { e with turn := 0 }

@[simp] theorem due_unturned (e : Entry) : e.unturned.due = e.due := rfl

@[simp] theorem task_unturned (e : Entry) : e.unturned.task = e.task := rfl

theorem due_le_of_before {e f : Entry} (h : e.before f = true) : e.due.count ≤ f.due.count := by
  rw [before_iff] at h
  omega

end Entry

theorem Handle.eq_of_index {a b : Handle} (h : a.index = b.index) : a = b := by
  cases a
  cases b
  exact congrArg Handle.mk h

/-! ### Results that are no faults -/

theorem bind_ok {ε α γ : Type} {x : Except ε α} {f : α → Except ε γ} {y : γ}
    (h : x >>= f = .ok y) : ∃ a, x = .ok a ∧ f a = .ok y := by
  cases x with
  | error fault => simp [bind, Except.bind] at h
  | ok a => exact ⟨a, rfl, h⟩

theorem map_ok {ε α γ : Type} {x : Except ε α} {f : α → γ} {y : γ} (h : x.map f = .ok y) :
    ∃ a, x = .ok a ∧ f a = y := by
  cases x with
  | error fault => simp [Except.map] at h
  | ok a => exact ⟨a, rfl, Except.ok.inj h⟩

theorem map_error_iff {ε α γ : Type} {x : Except ε α} {f : α → γ} {fault : ε} :
    x.map f = .error fault ↔ x = .error fault := by
  cases x <;> simp [Except.map]

namespace Scheduler

variable {β : Type}

/-! ### Entering -/

theorem pairwise_enter {e : Entry} {agenda : List Entry}
    (hs : agenda.Pairwise fun e f => e.before f = true) (ht : ∀ f ∈ agenda, f.turn ≠ e.turn) :
    (enter e agenda).Pairwise fun e f => e.before f = true := by
  induction agenda with
  | nil => simp [enter]
  | cons f agenda ih =>
    rw [List.pairwise_cons] at hs
    unfold enter
    split
    · next h =>
      refine List.pairwise_cons.mpr ⟨?_, List.pairwise_cons.mpr hs⟩
      intro g hg
      rcases List.mem_cons.mp hg with rfl | hg
      · exact h
      · exact Entry.before_trans h (hs.1 g hg)
    · next h =>
      refine List.pairwise_cons.mpr ⟨?_, ih hs.2 fun g hg => ht g (List.mem_cons_of_mem f hg)⟩
      intro g hg
      rcases mem_enter.mp hg with rfl | hg
      · exact Entry.before_of_not_before h fun heq => ht f List.mem_cons_self heq.symm
      · exact hs.1 g hg

theorem enter_perm (e : Entry) (agenda : List Entry) : (enter e agenda).Perm (e :: agenda) := by
  induction agenda with
  | nil => exact List.Perm.refl _
  | cons f agenda ih =>
    unfold enter
    split
    · exact List.Perm.refl _
    · exact (ih.cons f).trans (List.Perm.swap e f agenda)

theorem find?_enter {e : Entry} {agenda : List Entry} (task : Handle)
    (h : ∀ f ∈ agenda, f.task ≠ e.task) :
    (enter e agenda).find? (·.task = task)
      = if e.task = task then some e else agenda.find? (·.task = task) := by
  induction agenda with
  | nil =>
    unfold enter
    rw [List.find?_singleton]
    simp
  | cons f agenda ih =>
    have hf : f.task ≠ e.task := h f List.mem_cons_self
    have ih := ih fun g hg => h g (List.mem_cons_of_mem f hg)
    unfold enter
    split
    · by_cases he : e.task = task <;> simp [he]
    · by_cases he : e.task = task
      · have hft : f.task ≠ task := fun heq => hf (heq.trans he.symm)
        simp [ih, he, hft]
      · by_cases hft : f.task = task <;> simp [ih, he, hft]

/-- An entry that fires before all the others comes first. -/
theorem enter_of_before {e : Entry} {agenda : List Entry}
    (h : ∀ f ∈ agenda, e.before f = true) : enter e agenda = e :: agenda := by
  cases agenda with
  | nil => rfl
  | cons f agenda => exact if_pos (h f List.mem_cons_self)

/-- What is filtered out may as well not have been entered. -/
theorem filter_enter_of_neg {keep : Entry → Bool} {e : Entry} (h : keep e = false)
    (agenda : List Entry) : (enter e agenda).filter keep = agenda.filter keep := by
  have hneg : ¬ keep e = true := by simp [h]
  induction agenda with
  | nil => exact List.filter_cons_of_neg hneg
  | cons f agenda ih =>
    unfold enter
    split
    · exact List.filter_cons_of_neg hneg
    · rw [List.filter_cons, List.filter_cons, ih]

/-- What is filtered out has no part in where an entry comes to stand. -/
theorem filter_enter_of_pos {keep : Entry → Bool} {e : Entry} (h : keep e = true)
    {agenda : List Entry} (hs : agenda.Pairwise fun e f => e.before f = true) :
    (enter e agenda).filter keep = enter e (agenda.filter keep) := by
  induction agenda with
  | nil => exact List.filter_cons_of_pos h
  | cons f agenda ih =>
    rw [List.pairwise_cons] at hs
    by_cases hef : e.before f = true
    · -- then it fires before everything that is left
      have hall : ∀ g ∈ (f :: agenda).filter keep, e.before g = true := by
        intro g hg
        rcases List.mem_cons.mp (List.mem_filter.mp hg).1 with rfl | hg
        · exact hef
        · exact Entry.before_trans hef (hs.1 g hg)
      rw [enter, if_pos hef, List.filter_cons_of_pos h, enter_of_before hall]
    · rw [enter, if_neg hef, List.filter_cons, List.filter_cons, ih hs.2]
      split
      · rw [enter, if_neg hef]
      · rfl

/-- A new turn is the last one on its cycle, so turns have no part in it either. -/
theorem unturned_enter {e : Entry} {agenda : List Entry} (h : ∀ f ∈ agenda, f.turn < e.turn) :
    (enter e agenda).map Entry.unturned = enter e.unturned (agenda.map Entry.unturned) := by
  induction agenda with
  | nil => rfl
  | cons f agenda ih =>
    have hbefore : e.unturned.before f.unturned = e.before f := by
      have hturn := h f List.mem_cons_self
      rw [Bool.eq_iff_iff, Entry.before_iff, Entry.before_iff]
      simp only [Entry.unturned]
      omega
    rw [List.map_cons, enter, enter, hbefore]
    split
    · rfl
    · rw [List.map_cons, ih fun g hg => h g (List.mem_cons_of_mem f hg)]

/-! ### The invariant -/

/-- What holds of the agenda of a scheduler at all times. -/
structure Orderly (s : Scheduler β) : Prop where
  /-- The entries stand in the order of firing. -/
  sorted : s.agenda.Pairwise fun e f => e.before f = true
  /-- No task is armed twice. -/
  single : s.agenda.Pairwise fun e f => e.task ≠ f.task
  owned : ∀ e ∈ s.agenda, s.Owns e.task
  /-- The next turn is a new one. -/
  turn_lt : ∀ e ∈ s.agenda, e.turn < s.turns

theorem Orderly.new : (({} : Scheduler β)).Orderly :=
  ⟨List.Pairwise.nil, List.Pairwise.nil, fun e he => by simp at he, fun e he => by simp at he⟩

theorem Orderly.register {s : Scheduler β} (h : s.Orderly) (body : β) :
    (s.register body).2.Orderly := by
  refine ⟨h.sorted, h.single, ?_, h.turn_lt⟩
  intro e he
  have hlt : e.task.index < s.bodies.size := h.owned e he
  change e.task.index < (s.bodies.push (some body)).size
  rw [Array.size_push]
  omega

/-- The clock has no part in the order of the agenda. -/
theorem Orderly.setEpoch {s : Scheduler β} (h : s.Orderly) (epoch : Cycles) :
    ({ s with epoch } : Scheduler β).Orderly :=
  ⟨h.sorted, h.single, h.owned, h.turn_lt⟩

/-- If the first entry is for a later cycle, so are all the others. -/
theorem Orderly.later {s : Scheduler β} (h : s.Orderly) {cycle : Cycles}
    (hfirst : ∀ e ∈ s.agenda.head?, cycle < e.due) : ∀ e ∈ s.agenda, cycle.count < e.due.count := by
  have hsorted := h.sorted
  intro e he
  cases hs : s.agenda with
  | nil => simp [hs] at he
  | cons f rest =>
    rw [hs] at he hsorted hfirst
    have hf : cycle.count < f.due.count := hfirst f rfl
    rcases List.mem_cons.mp he with rfl | he
    · exact hf
    · have hle := Entry.due_le_of_before ((List.pairwise_cons.mp hsorted).1 e he)
      omega

theorem mem_agenda_dismiss {s : Scheduler β} {task : Handle} {e : Entry} :
    e ∈ (s.dismiss task).agenda ↔ e ∈ s.agenda ∧ e.task ≠ task := by
  simp [dismiss]

theorem Orderly.dismiss {s : Scheduler β} (h : s.Orderly) (task : Handle) :
    (s.dismiss task).Orderly := by
  refine ⟨h.sorted.filter _, h.single.filter _, ?_, ?_⟩
  · intro e he
    exact h.owned e (mem_agenda_dismiss.mp he).1
  · intro e he
    exact h.turn_lt e (mem_agenda_dismiss.mp he).1

theorem Orderly.place {s : Scheduler β} (h : s.Orderly) {task : Handle} (hown : s.Owns task)
    (hfree : ∀ e ∈ s.agenda, e.task ≠ task) (delay : Cycles) : (s.place task delay).Orderly := by
  have hmem : ∀ {e}, e ∈ (s.place task delay).agenda →
      e = ⟨s.epoch + delay, s.turns, task⟩ ∨ e ∈ s.agenda := fun he => mem_enter.mp he
  refine ⟨?_, ?_, ?_, ?_⟩
  · exact pairwise_enter h.sorted fun f hf => Nat.ne_of_lt (h.turn_lt f hf)
  · refine (List.Perm.pairwise_iff (fun hne => hne.symm) (enter_perm _ _)).mpr ?_
    exact List.pairwise_cons.mpr ⟨fun f hf heq => hfree f hf heq.symm, h.single⟩
  · intro e he
    rcases hmem he with rfl | he
    · exact hown
    · exact h.owned e he
  · intro e he
    change e.turn < s.turns + 1
    rcases hmem he with rfl | he
    · exact Nat.lt_succ_self _
    · exact Nat.lt_succ_of_lt (h.turn_lt e he)

/-! ### Commands -/

@[simp] theorem dismiss_dismiss (s : Scheduler β) (task : Handle) :
    (s.dismiss task).dismiss task = s.dismiss task := by
  simp [dismiss]

/-- There is nothing to dismiss for a task that is idle. -/
theorem dismiss_of_idle {s : Scheduler β} {task : Handle} (h : s.occurrence? task = none) :
    s.dismiss task = s := by
  have hkept : s.agenda.filter (·.task ≠ task) = s.agenda := by
    refine List.filter_eq_self.mpr fun e he => ?_
    simpa using List.find?_eq_none.mp h e he
  unfold dismiss
  rw [hkept]

theorem arm_eq (s : Scheduler β) (task : Handle) (delay : Cycles) :
    s.arm task delay
      = if delay = 0 then .error (.zeroDelay task)
        else if s.Owns task then .ok ((s.dismiss task).place task delay)
        else .error .foreignTask := by
  unfold arm cancel
  by_cases hd : delay = 0
  · rw [if_pos hd, if_pos hd]
  · rw [if_neg hd, if_neg hd]
    split <;> rfl

theorem rearm_eq (s : Scheduler β) (task : Handle) (delay : Cycles) :
    s.rearm task delay
      = if s.Owns task then
          if delay = 0 then .error (.zeroDelay task)
          else .ok ((s.dismiss task).place task delay)
        else .error .foreignTask := by
  unfold rearm cancel
  by_cases hown : s.Owns task
  · have hown' : (s.dismiss task).Owns task := hown
    rw [if_pos hown, if_pos hown]
    change (s.dismiss task).arm task delay = _
    rw [arm_eq, if_pos hown', dismiss_dismiss]
  · rw [if_neg hown, if_neg hown]
    rfl

theorem keepArmed_eq (s : Scheduler β) (task : Handle) (run : Bool) (delay : Cycles) :
    s.keepArmed task run delay
      = if s.Owns task then
          if run then
            if (s.occurrence? task).isSome then .ok s
            else if delay = 0 then .error (.zeroDelay task)
            else .ok ((s.dismiss task).place task delay)
          else .ok (s.dismiss task)
        else .error .foreignTask := by
  unfold keepArmed isArmed cancel
  by_cases hown : s.Owns task
  · rw [if_pos hown, if_pos hown, if_pos hown]
    cases run with
    | false => rfl
    | true =>
      change (if (s.occurrence? task).isSome then Except.ok s else s.arm task delay) = _
      rw [arm_eq, if_pos hown]
      rfl
  · rw [if_neg hown, if_neg hown, if_neg hown]
    cases run <;> rfl

/-- A command leaves the agenda alone, takes a task off it, or puts a task on it afresh. -/
theorem apply_cases {c : Command} {s s' : Scheduler β} (h : c.apply s = .ok s') :
    s' = s ∨ (∃ task, s' = s.dismiss task) ∨
      ∃ task delay, s.Owns task ∧ delay ≠ 0 ∧ s' = (s.dismiss task).place task delay := by
  cases c with
  | arm task delay =>
    rw [Command.apply, arm_eq] at h
    split at h
    · simp at h
    · next hd =>
      split at h
      · next hown => exact Or.inr (Or.inr ⟨task, delay, hown, hd, (Except.ok.inj h).symm⟩)
      · simp at h
  | rearm task delay =>
    rw [Command.apply, rearm_eq] at h
    split at h
    · next hown =>
      split at h
      · simp at h
      · next hd => exact Or.inr (Or.inr ⟨task, delay, hown, hd, (Except.ok.inj h).symm⟩)
    · simp at h
  | keepArmed task run delay =>
    rw [Command.apply, keepArmed_eq] at h
    split at h
    · next hown =>
      split at h
      · split at h
        · exact Or.inl (Except.ok.inj h).symm
        · split at h
          · simp at h
          · next hd => exact Or.inr (Or.inr ⟨task, delay, hown, hd, (Except.ok.inj h).symm⟩)
      · exact Or.inr (Or.inl ⟨task, (Except.ok.inj h).symm⟩)
    · simp at h
  | cancel task =>
    rw [Command.apply, cancel] at h
    split at h
    · exact Or.inr (Or.inl ⟨task, (Except.ok.inj h).symm⟩)
    · simp at h

theorem Orderly.apply {c : Command} {s s' : Scheduler β} (h : s.Orderly)
    (ha : c.apply s = .ok s') : s'.Orderly := by
  rcases apply_cases ha with rfl | ⟨task, rfl⟩ | ⟨task, delay, hown, -, rfl⟩
  · exact h
  · exact h.dismiss task
  · exact (h.dismiss task).place hown (fun e he => (mem_agenda_dismiss.mp he).2) delay

/-! ### Occurrences -/

theorem occurrence?_dismiss (s : Scheduler β) (task other : Handle) :
    (s.dismiss task).occurrence? other
      = if task = other then none else s.occurrence? other := by
  unfold occurrence? dismiss
  rw [List.find?_filter]
  split
  · next h => simp [h]
  · next h =>
    congr 1
    funext e
    by_cases he : e.task = other
    · simp [he, Ne.symm h]
    · simp [he]

theorem occurrence?_place (s : Scheduler β) (task other : Handle) (delay : Cycles) :
    ((s.dismiss task).place task delay).occurrence? other
      = if task = other then some ⟨s.epoch + delay, s.turns, task⟩ else s.occurrence? other := by
  have hfree : ∀ f ∈ (s.dismiss task).agenda, f.task ≠ task :=
    fun f hf => (mem_agenda_dismiss.mp hf).2
  refine (find?_enter other hfree).trans ?_
  have hd := occurrence?_dismiss s task other
  unfold occurrence? at hd
  split
  · rfl
  · next h =>
    rw [hd, if_neg h]
    rfl

/-- Where no task is listed twice, the entry of a task is the one to be found. -/
theorem find?_task {entries : List Entry} (h : entries.Pairwise fun e f => e.task ≠ f.task)
    (task : Handle) (e : Entry) :
    entries.find? (·.task = task) = some e ↔ e ∈ entries ∧ e.task = task := by
  constructor
  · intro hfind
    exact ⟨List.mem_of_find?_eq_some hfind, by simpa using List.find?_some hfind⟩
  · rintro ⟨he, rfl⟩
    induction entries with
    | nil => simp at he
    | cons f entries ih =>
      rw [List.pairwise_cons] at h
      rcases List.mem_cons.mp he with rfl | he
      · simp
      · have hne : f.task ≠ e.task := h.1 e he
        simp [hne, ih h.2 he]

theorem Orderly.occurrence?_eq_some {s : Scheduler β} (h : s.Orderly) {task : Handle}
    {e : Entry} : s.occurrence? task = some e ↔ e ∈ s.agenda ∧ e.task = task :=
  find?_task h.single task e

end Scheduler

end Cassette
