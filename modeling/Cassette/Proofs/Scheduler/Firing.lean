import Cassette.Proofs.Scheduler.Agenda
import Cassette.Scheduler.Poll

/-!
# One firing after another

When no task polls, advancing the clock is a sequence of firings, each of which runs one
routine to its end.  What holds of the scheduler before the first of them and is kept by
each holds after the last.  A firing arms nothing for the cycle that it happens on.

## Main definitions

* `NeverPoll` — no task advances the clock itself.
* `fire` — one firing.
* `Overruns`, `Settled` — the run has met its limit; the run ends, or breaks the contract.
* `Home away` — no body is out of its place, those of the tasks in `away` apart.
* `Extends` — what a running task may do to the agenda.

## Main results

* `advance_cons` — advancing is one firing and then advancing.
* `advance_induct` — what every firing keeps is kept.
* `advance_limit` — a higher limit changes nothing but an overrun.
* `advance_advance` — the clock may stop on the way.
* `fire_keeps`, `fire_extends` — what a firing does to the agenda.
-/

namespace Cassette.Scheduler

variable {β C : Type}

/-! ### Routines without polls -/

/-- What a poll is to a routine that has none. -/
abbrev noPoll : Cycles → Scheduler β → C → Except (Fault × C) (Scheduler β × C) :=
  fun _ _ context => .error (.overrun, context)

/-- The request that stops a run breaks the scheduler's contract. -/
def Fault.IsBreach : Fault → Prop
  | .zeroDelay _ | .foreignTask => True
  | .polledInsideTask | .overrun => False

theorem isBreach_of_apply {c : Command} {s : Scheduler β} {fault : Fault}
    (h : c.apply s = .error fault) : fault.IsBreach := by
  cases c with
  | arm task delay => rw [Command.apply, arm_eq] at h; grind [Fault.IsBreach]
  | rearm task delay => rw [Command.apply, rearm_eq] at h; grind [Fault.IsBreach]
  | keepArmed task run delay => rw [Command.apply, keepArmed_eq] at h; grind [Fault.IsBreach]
  | cancel task => rw [Command.apply, cancel] at h; grind [Fault.IsBreach]

theorem isBreach_of_ask {q : Query} {s : Scheduler β} {fault : Fault}
    (h : q.ask s = .error fault) : fault.IsBreach := by
  cases q with
  | epoch | pending | headroom => simp [Query.ask] at h
  | isArmed task =>
    simp only [Query.ask, isArmed] at h
    split at h
    · simp at h
    · obtain rfl := Except.error.inj h
      trivial
  | remaining task =>
    simp only [Query.ask, remaining] at h
    split at h
    · simp at h
    · obtain rfl := Except.error.inj h
      trivial

namespace Routine

variable {poll : Cycles → Scheduler β → C → Except (Fault × C) (Scheduler β × C)}

theorem PollFree.run_eq_noPoll {r : Routine β C} (h : r.PollFree) (s : Scheduler β)
    (context : C) : r.run poll s context = r.run noPoll s context := by
  induction h generalizing s context with
  | finish body => rfl
  | command c _ ih =>
    simp only [run]
    split
    · exact ih _ _
    · rfl
  | register body _ ih => exact ih _ _ _
  | ask q _ ih =>
    simp only [run]
    split
    · exact ih _ _ _
    · rfl
  | read _ ih => exact ih _ _ _
  | write context _ ih => exact ih _ _

theorem PollFree.isBreach {r : Routine β C} (h : r.PollFree) {s : Scheduler β} {context : C}
    {stop : Fault × C} (hrun : r.run poll s context = .error stop) : stop.1.IsBreach := by
  induction h generalizing s context with
  | finish body => simp [run] at hrun
  | command c _ ih =>
    simp only [run] at hrun
    split at hrun
    · exact ih hrun
    · next fault hf =>
      obtain rfl := Except.error.inj hrun
      exact isBreach_of_apply hf
  | register body _ ih => exact ih _ hrun
  | ask q _ ih =>
    simp only [run] at hrun
    split at hrun
    · exact ih _ hrun
    · next fault hf =>
      obtain rfl := Except.error.inj hrun
      exact isBreach_of_ask hf
  | read _ ih => exact ih _ hrun
  | write context _ ih => exact ih hrun

/-- What commands, registrations and polls keep is kept by every routine. -/
theorem run_induct (P : Scheduler β → Prop)
    (hcommand : ∀ {c : Command} {s s' : Scheduler β}, P s → c.apply s = .ok s' → P s')
    (hregister : ∀ {s : Scheduler β} (body : β), P s → P (s.register body).2)
    (hpoll : ∀ {cycles : Cycles} {s s' : Scheduler β} {context context' : C}, P s →
      poll cycles s context = .ok (s', context') → P s')
    (r : Routine β C) {s s' : Scheduler β} {context context' : C} {body : β} (hs : P s)
    (hrun : r.run poll s context = .ok (body, s', context')) : P s' := by
  induction r generalizing s context with
  | finish body =>
    simp only [run, Except.ok.injEq, Prod.mk.injEq] at hrun
    obtain ⟨-, rfl, -⟩ := hrun
    exact hs
  | command c next ih =>
    simp only [run] at hrun
    split at hrun
    · next s₁ h1 => exact ih (hcommand hs h1) hrun
    · simp at hrun
  | register body next ih => exact ih _ (hregister body hs) hrun
  | ask q next ih =>
    simp only [run] at hrun
    split at hrun
    · exact ih _ hs hrun
    · simp at hrun
  | read next ih => exact ih _ hs hrun
  | write written next ih => exact ih hs hrun
  | poll cycles next ih =>
    simp only [run] at hrun
    split at hrun
    · next s₁ context₁ h1 => exact ih (hpoll hs h1) hrun
    · simp at hrun

/-- What commands and registrations keep is kept by a routine that never polls. -/
theorem PollFree.run_induct {r : Routine β C} (h : r.PollFree) (P : Scheduler β → Prop)
    (hcommand : ∀ {c : Command} {s s' : Scheduler β}, P s → c.apply s = .ok s' → P s')
    (hregister : ∀ {s : Scheduler β} (body : β), P s → P (s.register body).2)
    {s s' : Scheduler β} {context context' : C} {body : β} (hs : P s)
    (hrun : r.run poll s context = .ok (body, s', context')) : P s' := by
  induction h generalizing s context with
  | finish body =>
    simp only [run, Except.ok.injEq, Prod.mk.injEq] at hrun
    obtain ⟨-, rfl, -⟩ := hrun
    exact hs
  | command c _ ih =>
    simp only [run] at hrun
    split at hrun
    · next s₁ h1 => exact ih (hcommand hs h1) hrun
    · simp at hrun
  | register body _ ih => exact ih _ (hregister body hs) hrun
  | ask q _ ih =>
    simp only [run] at hrun
    split at hrun
    · exact ih _ hs hrun
    · simp at hrun
  | read _ ih => exact ih _ hs hrun
  | write context _ ih => exact ih hs hrun

end Routine

/-- No task advances the clock itself. -/
def NeverPoll (behave : Behaviour β C) : Prop := ∀ body task, (behave body task).PollFree

/-! ### Advancing is firing -/

/-- One firing: the task of `e` runs, and keeps the body that its routine ends with. -/
def fire (behave : Behaviour β C) (e : Entry) (s : Scheduler β) (context : C) :
    Except (Fault × C) (Scheduler β × C) :=
  match s.body? e.task with
  | none => .error (.polledInsideTask, context)
  | some body =>
    match (behave body e.task).run noPoll (s.takeOut e) context with
    | .error stop => .error stop
    | .ok (body, s, context) => .ok (s.putBack e.task body, context)

variable {behave : Behaviour β C}

/-- With nothing due the clock is set to its target. -/
theorem advance_of_idle {s : Scheduler β} {target : Cycles}
    (h : ∀ e ∈ s.agenda.head?, target < e.due) (limit : Nat) (context : C) :
    advance behave (limit + 1) target s context = .ok ({ s with epoch := target }, context) := by
  unfold advance
  split
  · rfl
  · next e rest hs =>
    have he : target < e.due := h e (by rw [hs]; rfl)
    rw [if_pos he]

/-- Otherwise the first entry fires, which may poll in turn, and the clock goes on. -/
theorem advance_due {limit : Nat} {target : Cycles} {s : Scheduler β} {context : C} {e : Entry}
    {rest : List Entry} (hs : s.agenda = e :: rest) (hdue : ¬ target < e.due) :
    advance behave (limit + 1) target s context
      = match s.body? e.task with
        | none => .error (.polledInsideTask, context)
        | some body =>
          (behave body e.task).run (poll behave limit) (s.takeOut e) context >>=
            fun out => advance behave limit target (out.2.1.putBack e.task out.1) out.2.2 := by
  rw [advance, hs]
  simp only [if_neg hdue]
  cases s.body? e.task with
  | none => rfl
  | some body =>
    have hpoll : (fun cycles s context => advance behave limit (s.epoch + cycles) s context)
        = poll behave limit := rfl
    simp only [hpoll]
    cases (behave body e.task).run (poll behave limit) (s.takeOut e) context <;> rfl

/-- If no task polls, a firing is one routine from its start to its end. -/
theorem advance_cons (hb : NeverPoll behave) {s : Scheduler β} {e : Entry} {rest : List Entry}
    (hs : s.agenda = e :: rest) {target : Cycles} (hdue : ¬ target < e.due) (limit : Nat)
    (context : C) :
    advance behave (limit + 1) target s context
      = match fire behave e s context with
        | .error stop => .error stop
        | .ok (s, context) => advance behave limit target s context := by
  rw [advance, hs]
  simp only [if_neg hdue, fire]
  cases hbody : s.body? e.task with
  | none => rfl
  | some body =>
    simp only
    rw [(hb body e.task).run_eq_noPoll]
    cases (behave body e.task).run noPoll (s.takeOut e) context <;> rfl

theorem exists_due {s : Scheduler β} {target : Cycles}
    (h : ¬ ∀ e ∈ s.agenda.head?, target < e.due) :
    ∃ e rest, s.agenda = e :: rest ∧ ¬ target < e.due := by
  cases hs : s.agenda with
  | nil => simp [hs] at h
  | cons e rest => exact ⟨e, rest, rfl, by simpa [hs] using h⟩

/-- The clock is overwritten by every firing, so where it stands before does not matter. -/
theorem advance_epoch (hb : NeverPoll behave) (epoch target : Cycles) (limit : Nat)
    (s : Scheduler β) (context : C) :
    advance behave limit target { s with epoch } context
      = advance behave limit target s context := by
  cases limit with
  | zero => rfl
  | succ limit =>
    by_cases hidle : ∀ e ∈ s.agenda.head?, target < e.due
    · rw [advance_of_idle hidle, advance_of_idle (s := { s with epoch }) hidle]
    · obtain ⟨e, rest, hs, hdue⟩ := exists_due hidle
      rw [advance_cons hb hs hdue, advance_cons hb (s := { s with epoch }) hs hdue]
      rfl

/-- What every firing keeps is kept until the clock reaches its target, and then nothing is
due. -/
theorem advance_induct (hb : NeverPoll behave) (P : Scheduler β → C → Prop) {target : Cycles}
    (hfire : ∀ {s s' : Scheduler β} {context context' : C} {e : Entry} {rest : List Entry},
      P s context → s.agenda = e :: rest → ¬ target < e.due →
      fire behave e s context = .ok (s', context') → P s' context')
    {limit : Nat} {s s' : Scheduler β} {context context' : C} (h : P s context)
    (hadv : advance behave limit target s context = .ok (s', context')) :
    ∃ s₁, P s₁ context' ∧ s' = { s₁ with epoch := target } ∧
      ∀ e ∈ s₁.agenda.head?, target < e.due := by
  induction limit generalizing s context with
  | zero => simp [advance] at hadv
  | succ limit ih =>
    by_cases hidle : ∀ e ∈ s.agenda.head?, target < e.due
    · rw [advance_of_idle hidle, Except.ok.injEq, Prod.mk.injEq] at hadv
      obtain ⟨rfl, rfl⟩ := hadv
      exact ⟨s, h, rfl, hidle⟩
    · obtain ⟨e, rest, hs, hdue⟩ := exists_due hidle
      rw [advance_cons hb hs hdue] at hadv
      split at hadv
      · simp at hadv
      · next s₁ context₁ hf => exact ih (hfire h hs hdue hf) hadv

/-! ### The limit -/

/-- The run has met its limit. -/
def Overruns {α : Type} (x : Except (Fault × C) α) : Prop :=
  ∃ context, x = .error (.overrun, context)

/-- The run comes to its end, or to a request that breaks the contract. -/
def Settled {α : Type} (x : Except (Fault × C) α) : Prop :=
  ∀ stop, x = .error stop → stop.1.IsBreach

theorem Settled.not_overruns {α : Type} {x : Except (Fault × C) α} (h : Settled x) :
    ¬ Overruns x := by
  rintro ⟨context, hx⟩
  exact h _ hx

/-- A higher limit changes nothing but an overrun. -/
theorem advance_limit (hb : NeverPoll behave) (target : Cycles) (limit extra : Nat)
    (s : Scheduler β) (context : C) (h : ¬ Overruns (advance behave limit target s context)) :
    advance behave (limit + extra) target s context = advance behave limit target s context := by
  induction limit generalizing s context with
  | zero => exact absurd ⟨context, rfl⟩ h
  | succ limit ih =>
    rw [Nat.add_right_comm]
    by_cases hidle : ∀ e ∈ s.agenda.head?, target < e.due
    · rw [advance_of_idle hidle, advance_of_idle hidle]
    · obtain ⟨e, rest, hs, hdue⟩ := exists_due hidle
      rw [advance_cons hb hs hdue] at h ⊢
      rw [advance_cons hb hs hdue]
      cases hf : fire behave e s context with
      | error stop => rfl
      | ok out =>
        rw [hf] at h
        exact ih out.1 out.2 h

/-- The clock may stop on the way. -/
theorem advance_advance (hb : NeverPoll behave) {first second : Cycles}
    (hle : first.count ≤ second.count) {limit more : Nat} {s s' : Scheduler β}
    {context context' : C} (h : advance behave limit first s context = .ok (s', context'))
    (hmore : ¬ Overruns (advance behave more second s' context')) :
    advance behave (limit + more) second s context = advance behave more second s' context' := by
  induction limit generalizing s context with
  | zero => simp [advance] at h
  | succ limit ih =>
    by_cases hidle : ∀ e ∈ s.agenda.head?, first < e.due
    · -- nothing is due by the first target, so all the firings are those of the second part
      rw [advance_of_idle hidle, Except.ok.injEq, Prod.mk.injEq] at h
      obtain ⟨rfl, rfl⟩ := h
      have hepoch := advance_epoch hb first second more s context
      rw [hepoch] at hmore ⊢
      rw [Nat.add_comm]
      exact advance_limit hb second more (limit + 1) s context hmore
    · obtain ⟨e, rest, hs, hdue⟩ := exists_due hidle
      have hdue' : ¬ second < e.due := by
        rw [Cycles.lt_iff] at *
        omega
      rw [advance_cons hb hs hdue] at h
      rw [Nat.add_right_comm, advance_cons hb hs hdue']
      cases hf : fire behave e s context with
      | error stop =>
        rw [hf] at h
        simp at h
      | ok out =>
        rw [hf] at h
        exact ih h

/-! ### Bodies in place -/

/-- Only the bodies of the tasks in `away` may be out of their places. -/
def Home (away : List Handle) (s : Scheduler β) : Prop :=
  ∀ task, task ∉ away → s.Owns task → (s.body? task).isSome

theorem home_new : Home [] ({} : Scheduler β) := fun task _ h => by simp [Owns] at h

theorem bodies_of_apply {c : Command} {s s' : Scheduler β} (h : c.apply s = .ok s') :
    s'.bodies = s.bodies := by
  rcases apply_cases h with rfl | ⟨task, rfl⟩ | ⟨task, delay, -, -, rfl⟩ <;> rfl

theorem epoch_of_apply {c : Command} {s s' : Scheduler β} (h : c.apply s = .ok s') :
    s'.epoch = s.epoch := by
  rcases apply_cases h with rfl | ⟨task, rfl⟩ | ⟨task, delay, -, -, rfl⟩ <;> rfl

theorem Home.apply {away : List Handle} {c : Command} {s s' : Scheduler β} (h : Home away s)
    (ha : c.apply s = .ok s') : Home away s' := by
  intro task hne hown
  unfold Owns at hown
  rw [bodies_of_apply ha] at hown
  unfold body?
  rw [bodies_of_apply ha]
  exact h task hne hown

theorem Home.register {away : List Handle} {s : Scheduler β} (h : Home away s) (body : β) :
    Home away (s.register body).2 := by
  intro task hne hown
  have hlt : task.index < (s.bodies.push (some body)).size := hown
  rw [Array.size_push] at hlt
  change ((s.bodies.push (some body))[task.index]?).join.isSome
  rw [Array.getElem?_push]
  split
  · rfl
  · exact h task hne (show task.index < s.bodies.size by omega)

theorem owns_takeOut {s : Scheduler β} {e : Entry} {task : Handle} :
    (s.takeOut e).Owns task ↔ s.Owns task := by
  change task.index < (s.bodies.setIfInBounds e.task.index none).size ↔ _
  rw [Array.size_setIfInBounds]
  rfl

theorem owns_putBack {s : Scheduler β} {other task : Handle} {body : β} :
    (s.putBack other body).Owns task ↔ s.Owns task := by
  change task.index < (s.bodies.setIfInBounds other.index (some body)).size ↔ _
  rw [Array.size_setIfInBounds]
  rfl

theorem Home.takeOut {away : List Handle} {s : Scheduler β} (h : Home away s) (e : Entry) :
    Home (e.task :: away) (s.takeOut e) := by
  intro task hne hown
  rw [List.mem_cons, not_or] at hne
  have hindex : e.task.index ≠ task.index := fun heq => hne.1 (Handle.eq_of_index heq).symm
  change ((s.bodies.setIfInBounds e.task.index none)[task.index]?).join.isSome
  rw [Array.getElem?_setIfInBounds_ne hindex]
  exact h task hne.2 (owns_takeOut.mp hown)

theorem Home.putBack {away : List Handle} {s : Scheduler β} {task : Handle}
    (h : Home (task :: away) s) (body : β) : Home away (s.putBack task body) := by
  intro other haway hown
  have hlt : other.index < s.bodies.size := owns_putBack.mp hown
  change ((s.bodies.setIfInBounds task.index (some body))[other.index]?).join.isSome
  rw [Array.getElem?_setIfInBounds]
  split
  · next heq => simp [heq, hlt]
  · next hne =>
    refine h other ?_ hlt
    rw [List.mem_cons, not_or]
    exact ⟨fun heq => hne (by rw [heq]), haway⟩

/-! ### What a firing may do -/

/-- The number of entries due by a cycle. -/
def dueCount (cycle : Cycles) (s : Scheduler β) : Nat :=
  s.agenda.countP fun e => decide (e.due.count ≤ cycle.count)

/-- What a running task may do to the agenda: entries stay or go, and new ones are for later
cycles. -/
structure Extends (s s' : Scheduler β) : Prop where
  epoch : s'.epoch = s.epoch
  later : ∀ e ∈ s'.agenda, e ∈ s.agenda ∨ s.epoch.count < e.due.count
  fewer : s'.dueCount s.epoch ≤ s.dueCount s.epoch

theorem Extends.refl (s : Scheduler β) : s.Extends s :=
  ⟨rfl, fun _ he => Or.inl he, Nat.le_refl _⟩

theorem Extends.register {s s' : Scheduler β} (h : s.Extends s') (body : β) :
    s.Extends (s'.register body).2 := ⟨h.epoch, h.later, h.fewer⟩

theorem Extends.dismiss {s s' : Scheduler β} (h : s.Extends s') (task : Handle) :
    s.Extends (s'.dismiss task) :=
  ⟨h.epoch, fun e he => h.later e (mem_agenda_dismiss.mp he).1,
    Nat.le_trans (List.Sublist.countP_le List.filter_sublist) h.fewer⟩

theorem count_lt_add {epoch delay : Cycles} (hd : delay ≠ 0)
    (hlast : epoch.count < Cycles.last.count) : epoch.count < (epoch + delay).count := by
  have hpos : delay.count ≠ 0 := fun h => hd (Cycles.ext h)
  simp only [Cycles.count_add, Cycles.count_last] at *
  omega

theorem Extends.apply {c : Command} {s s₁ s' : Scheduler β}
    (hlast : s.epoch.count < Cycles.last.count) (h : s.Extends s₁) (ha : c.apply s₁ = .ok s') :
    s.Extends s' := by
  rcases apply_cases ha with rfl | ⟨task, rfl⟩ | ⟨task, delay, -, hd, rfl⟩
  · exact h
  · exact h.dismiss task
  · have hafter : s.epoch.count < (s₁.epoch + delay).count := by
      rw [h.epoch]
      exact count_lt_add hd hlast
    have hd := h.dismiss task
    refine ⟨h.epoch, ?_, ?_⟩
    · intro e he
      rcases mem_enter.mp he with rfl | he
      · exact Or.inr hafter
      · exact hd.later e he
    · refine Nat.le_trans (Nat.le_of_eq ?_) hd.fewer
      refine ((enter_perm _ _).countP_eq _).trans ?_
      rw [List.countP_cons_of_neg (by rw [decide_eq_true_eq]; exact Nat.not_le_of_lt hafter)]
      rfl

theorem Orderly.takeOut {s : Scheduler β} (h : s.Orderly) (e : Entry) : (s.takeOut e).Orderly where
  sorted := h.sorted.sublist (List.tail_sublist _)
  single := h.single.sublist (List.tail_sublist _)
  owned := fun f hf => owns_takeOut.mpr (h.owned f (List.mem_of_mem_tail hf))
  turn_lt := fun f hf => h.turn_lt f (List.mem_of_mem_tail hf)

theorem Orderly.putBack {s : Scheduler β} (h : s.Orderly) (task : Handle) (body : β) :
    (s.putBack task body).Orderly :=
  ⟨h.sorted, h.single, fun f hf => owns_putBack.mpr (h.owned f hf), h.turn_lt⟩

/-- A firing keeps the agenda orderly and puts the body back. -/
theorem fire_keeps (hb : NeverPoll behave) {s s' : Scheduler β} {e : Entry}
    {context context' : C} (h : s.Orderly ∧ Home [] s)
    (hf : fire behave e s context = .ok (s', context')) : s'.Orderly ∧ Home [] s' := by
  unfold fire at hf
  split at hf
  · simp at hf
  · next body _ =>
    split at hf
    · simp at hf
    · next body' s₁ context₁ hrun =>
      obtain ⟨rfl, -⟩ := Prod.mk.inj (Except.ok.inj hf)
      have hrun := (hb body e.task).run_induct (fun s => s.Orderly ∧ Home [e.task] s)
        (fun h ha => ⟨h.1.apply ha, h.2.apply ha⟩)
        (fun body h => ⟨h.1.register body, h.2.register body⟩)
        ⟨h.1.takeOut e, h.2.takeOut e⟩ hrun
      exact ⟨hrun.1.putBack e.task body', hrun.2.putBack body'⟩

/-- Before the end of time a firing leaves the clock on its cycle, and arms nothing for it. -/
theorem fire_extends (hb : NeverPoll behave) {s s' : Scheduler β} {e : Entry}
    {context context' : C} (hlast : e.due.count < Cycles.last.count)
    (hf : fire behave e s context = .ok (s', context')) : (s.takeOut e).Extends s' := by
  unfold fire at hf
  split at hf
  · simp at hf
  · next body _ =>
    split at hf
    · simp at hf
    · next body' s₁ context₁ hrun =>
      obtain ⟨rfl, -⟩ := Prod.mk.inj (Except.ok.inj hf)
      have hrun := (hb body e.task).run_induct (fun s₁ => (s.takeOut e).Extends s₁)
        (fun h ha => h.apply hlast ha) (fun body h => h.register body) (.refl _) hrun
      exact ⟨hrun.epoch, hrun.later, hrun.fewer⟩

/-- A firing stops only at a request that breaks the contract. -/
theorem fire_settled (hb : NeverPoll behave) {s : Scheduler β} {e : Entry} (context : C)
    (hbody : (s.body? e.task).isSome) : Settled (fire behave e s context) := by
  intro stop hstop
  unfold fire at hstop
  split at hstop
  · next hnone =>
    rw [hnone] at hbody
    simp at hbody
  · next body _ =>
    split at hstop
    · next stop' hrun =>
      obtain rfl := Except.error.inj hstop
      exact (hb body e.task).isBreach hrun
    · simp at hstop

/-! ### What an advance leaves behind -/

/-- Whatever its tasks do, polls included, an advance that comes to its end leaves an orderly
agenda with nothing due, and the bodies of the tasks that it fired in their places. -/
theorem advance_keeps {away : List Handle} {limit : Nat} {target : Cycles} {s s' : Scheduler β}
    {context context' : C} (h : s.Orderly ∧ Home away s)
    (hadv : advance behave limit target s context = .ok (s', context')) :
    s'.Orderly ∧ Home away s' ∧ s'.epoch = target ∧
      ∀ e ∈ s'.agenda, target.count < e.due.count := by
  induction limit generalizing away target s s' context context' with
  | zero => simp [advance] at hadv
  | succ limit ih =>
    by_cases hidle : ∀ e ∈ s.agenda.head?, target < e.due
    · rw [advance_of_idle hidle, Except.ok.injEq, Prod.mk.injEq] at hadv
      obtain ⟨rfl, -⟩ := hadv
      exact ⟨h.1.setEpoch target, h.2, rfl, h.1.later hidle⟩
    · obtain ⟨e, rest, hs, hdue⟩ := exists_due hidle
      rw [advance_due hs hdue] at hadv
      split at hadv
      · simp at hadv
      · next body _ =>
        obtain ⟨⟨body', s₁, context₁⟩, hrun, hadv⟩ := bind_ok hadv
        -- a poll of the task is an advance within what is left of the limit
        have hkeeps := Routine.run_induct (fun s => s.Orderly ∧ Home (e.task :: away) s)
          (fun h ha => ⟨h.1.apply ha, h.2.apply ha⟩)
          (fun body h => ⟨h.1.register body, h.2.register body⟩)
          (fun h hpoll => ⟨(ih h hpoll).1, (ih h hpoll).2.1⟩) _
          ⟨h.1.takeOut e, h.2.takeOut e⟩ hrun
        exact ih ⟨hkeeps.1.putBack e.task body', hkeeps.2.putBack body'⟩ hadv

end Cassette.Scheduler
