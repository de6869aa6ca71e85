import Cassette.Proofs.Scheduler.Budget

/-!
# The scheduler as it is kept

A scheduler keeps an armed occurrence in two places: among all that are pending, in the order of
firing, and in the slot of its task, where a command on the task finds it without a search.  A
command has to change both.  Here the two places are kept apart, and a ledger in which they agree
is shown to do what the agenda alone does.

## Main definitions

* `Slot`, `Ledger` — the tasks with their own notes, and the pending occurrences.
* `Ledger.apply`, `Ledger.ask`, `Ledger.takeOut` — the requests, and the start of a firing.
* `Ledger.view` — the ledger as a scheduler, which has the agenda alone.
* `Ledger.Sound` — the two places agree, and nothing is overdue.
* `Ledger.Accurate` — what the answers come to.

## Main results

* `Sound.apply_view`, `Sound.ask_view` — every request does what it does to the scheduler.
* `Sound.apply`, `Sound.register`, `Sound.takeOut` — and keeps the ledger sound.
* `Sound.accurate` — a sound ledger gives accurate answers.
-/

namespace Cassette.Scheduler

variable {β C : Type}

/-- A task as it is kept. -/
structure Slot (β : Type) where
  /-- The body, which is out of its place while the task runs. -/
  body : Option β
  /-- The due cycle and the turn of the task's occurrence, while it is armed. -/
  due : Option (Cycles × Nat)

/-- Tasks with bodies of type `β` in their slots, and the pending occurrences. -/
structure Ledger (β : Type) where
  epoch : Cycles := 0
  /-- The number of occurrences armed so far. -/
  turns : Nat := 0
  slots : Array (Slot β) := #[]
  /-- The armed occurrences, in the order of firing. -/
  pending : List Entry := []

namespace Ledger

/-! ### Slots -/

/-- The task was issued by this scheduler. -/
def Owns (l : Ledger β) (task : Handle) : Prop := task.index < l.slots.size

instance (l : Ledger β) (task : Handle) : Decidable (l.Owns task) :=
  inferInstanceAs (Decidable (task.index < l.slots.size))

/-- What the slot of `task` notes of its occurrence. -/
def due? (l : Ledger β) (task : Handle) : Option (Cycles × Nat) :=
  l.slots[task.index]?.bind Slot.due

/-- The body of `task`, unless it is running. -/
def body? (l : Ledger β) (task : Handle) : Option β := l.slots[task.index]?.bind Slot.body

/-- The slot of `task` with another note. -/
def note (l : Ledger β) (task : Handle) (due : Option (Cycles × Nat)) : Ledger β :=
  { l with slots := l.slots.modify task.index fun slot => { slot with due } }

/-- A new task, which is not armed. -/
def register (l : Ledger β) (body : β) : Handle × Ledger β :=
  (⟨l.slots.size⟩, { l with slots := l.slots.push ⟨some body, none⟩ })

/-! ### Commands -/

/-- The note of `task` struck out, and with it the occurrence that it names. -/
def dismiss (l : Ledger β) (task : Handle) : Ledger β :=
  match l.due? task with
  | none => l
  | some (due, turn) => { l.note task none with pending := l.pending.erase ⟨due, turn, task⟩ }

/-- `task` armed `delay` ahead, in the next turn, in both places. -/
def place (l : Ledger β) (task : Handle) (delay : Cycles) : Ledger β :=
  { l.note task (some (l.epoch + delay, l.turns)) with
    turns := l.turns + 1
    pending := enter ⟨l.epoch + delay, l.turns, task⟩ l.pending }

/-- Take `task` off; harmless if it is not pending. -/
def cancel (l : Ledger β) (task : Handle) : Except Fault (Ledger β) :=
  if l.Owns task then .ok (l.dismiss task) else .error .foreignTask

/-- Arm `task`, or move it if it is armed.  The delay is examined first. -/
def arm (l : Ledger β) (task : Handle) (delay : Cycles) : Except Fault (Ledger β) :=
  if delay = 0 then .error (.zeroDelay task)
  else do return (← l.cancel task).place task delay

/-- Cancel `task` and arm it afresh.  The task is examined before the delay. -/
def rearm (l : Ledger β) (task : Handle) (delay : Cycles) : Except Fault (Ledger β) := do
  (← l.cancel task).arm task delay

/-- Whether the slot of `task` notes an occurrence. -/
def isArmed (l : Ledger β) (task : Handle) : Except Fault Bool :=
  if l.Owns task then .ok (l.due? task).isSome else .error .foreignTask

/-- Arm `task` if it should run and is idle, and cancel it if it should not run. -/
def keepArmed (l : Ledger β) (task : Handle) (run : Bool) (delay : Cycles) :
    Except Fault (Ledger β) := do
  if run then
    if ← l.isArmed task then return l else l.arm task delay
  else l.cancel task

/-- The ledger after a command. -/
def apply (l : Ledger β) : Command → Except Fault (Ledger β)
  | .arm task delay => l.arm task delay
  | .rearm task delay => l.rearm task delay
  | .keepArmed task run delay => l.keepArmed task run delay
  | .cancel task => l.cancel task

/-! ### Questions -/

/-- Cycles until `task` fires, by the note in its slot. -/
def remaining (l : Ledger β) (task : Handle) : Except Fault (Option Cycles) :=
  if l.Owns task then .ok ((l.due? task).map (·.1 - l.epoch)) else .error .foreignTask

/-- Cycles until the first of the pending occurrences. -/
def headroom (l : Ledger β) : Cycles := l.pending.head?.elim maxHeadroom (·.due - l.epoch)

/-- The answer to a question. -/
def ask (l : Ledger β) : (q : Query) → Except Fault q.Answer
  | .epoch => .ok l.epoch
  | .pending => .ok l.pending.length
  | .headroom => .ok l.headroom
  | .isArmed task => l.isArmed task
  | .remaining task => l.remaining task

/-! ### Firing -/

/-- The ledger while the task of `e`, the first pending occurrence, is about to run: the occurrence
is off both places, the body is out of its slot and the clock shows the due cycle. -/
def takeOut (l : Ledger β) (e : Entry) : Ledger β :=
  { l with
    epoch := e.due
    slots := l.slots.modify e.task.index fun _ => ⟨none, none⟩
    pending := l.pending.tail }

/-- The body of `task` back in its slot. -/
def putBack (l : Ledger β) (task : Handle) (body : β) : Ledger β :=
  { l with slots := l.slots.modify task.index fun slot => { slot with body := some body } }

/-! ### The agenda alone -/

/-- The ledger as a scheduler, without the notes in the slots. -/
def view (l : Ledger β) : Scheduler β :=
  { epoch := l.epoch, turns := l.turns, bodies := l.slots.map Slot.body, agenda := l.pending }

theorem view_new : ({} : Ledger β).view = {} := by
  unfold view
  rw [Array.map_empty]

theorem owns_view {l : Ledger β} {task : Handle} : l.view.Owns task ↔ l.Owns task := by
  change task.index < (l.slots.map Slot.body).size ↔ _
  rw [Array.size_map]
  rfl

theorem body?_view (l : Ledger β) (task : Handle) : l.view.body? task = l.body? task := by
  change ((l.slots.map Slot.body)[task.index]?).join = _
  rw [Array.getElem?_map, body?]
  cases l.slots[task.index]? <;> rfl

theorem getElem?_bodies (slots : Array (Slot β)) (i j : Nat) (f : Slot β → Slot β) :
    ((slots.modify i f).map Slot.body)[j]?
      = if i = j then slots[j]?.map fun slot => (f slot).body else (slots.map Slot.body)[j]? := by
  rw [Array.getElem?_map, Array.getElem?_modify, Array.getElem?_map]
  split
  · rw [Option.map_map]
    rfl
  · rfl

theorem bodies_note (l : Ledger β) (task : Handle) (due : Option (Cycles × Nat)) :
    (l.note task due).slots.map Slot.body = l.slots.map Slot.body := by
  apply Array.ext_getElem?
  intro i
  unfold note
  rw [getElem?_bodies]
  split
  · rw [Array.getElem?_map]
  · rfl

theorem place_view (l : Ledger β) (task : Handle) (delay : Cycles) :
    (l.place task delay).view = l.view.place task delay := by
  unfold view Scheduler.place place
  simp only [bodies_note]
  rfl

theorem register_view (l : Ledger β) (body : β) :
    (l.register body).1 = (l.view.register body).1 ∧
      (l.register body).2.view = (l.view.register body).2 := by
  constructor
  · exact congrArg Handle.mk Array.size_map.symm
  · simp [view, register, Scheduler.register]

/-- Setting a body is setting it among the bodies. -/
theorem bodies_modify (slots : Array (Slot β)) (i : Nat) (f : Slot β → Slot β) {body : Option β}
    (hf : ∀ slot, (f slot).body = body) :
    (slots.modify i f).map Slot.body = (slots.map Slot.body).setIfInBounds i body := by
  apply Array.ext_getElem?
  intro j
  rw [getElem?_bodies, Array.getElem?_setIfInBounds, Array.size_map, Array.getElem?_map]
  split
  · next h =>
    subst h
    split
    · next hlt => simp [hlt, hf]
    · next hge => simp [Array.getElem?_eq_none (Nat.not_lt.mp hge)]
  · rfl

theorem takeOut_view (l : Ledger β) (e : Entry) : (l.takeOut e).view = l.view.takeOut e := by
  have hbodies := bodies_modify l.slots e.task.index (fun _ => ⟨none, none⟩) fun _ => rfl
  unfold view takeOut
  simp only [hbodies]
  rfl

theorem putBack_view (l : Ledger β) (task : Handle) (body : β) :
    (l.putBack task body).view = l.view.putBack task body := by
  have hbodies := bodies_modify l.slots task.index
    (fun slot => { slot with body := some body }) fun _ => rfl
  unfold view putBack
  simp only [hbodies]
  rfl

/-! ### Notes -/

theorem due?_modify (l : Ledger β) (task other : Handle) (f : Slot β → Slot β)
    {due : Option (Cycles × Nat)} (hown : l.Owns task) (hf : ∀ slot, (f slot).due = due) :
    ((l.slots.modify task.index f)[other.index]?).bind Slot.due
      = if task = other then due else l.due? other := by
  rw [Array.getElem?_modify]
  by_cases h : task = other
  · subst h
    have hlt : task.index < l.slots.size := hown
    simp [hlt, hf]
  · rw [if_neg fun hindex => h (Handle.eq_of_index hindex), if_neg h]
    rfl

theorem due?_note {l : Ledger β} {task : Handle} (hown : l.Owns task)
    (due : Option (Cycles × Nat)) (other : Handle) :
    (l.note task due).due? other = if task = other then due else l.due? other :=
  l.due?_modify task other _ hown fun _ => rfl

theorem due?_place {l : Ledger β} {task : Handle} (hown : l.Owns task) (delay : Cycles)
    (other : Handle) :
    (l.place task delay).due? other
      = if task = other then some (l.epoch + delay, l.turns) else l.due? other :=
  due?_note hown _ other

theorem due?_takeOut {l : Ledger β} {e : Entry} (hown : l.Owns e.task) (other : Handle) :
    (l.takeOut e).due? other = if e.task = other then none else l.due? other :=
  l.due?_modify e.task other _ hown fun _ => rfl

theorem due?_putBack (l : Ledger β) (task : Handle) (body : β) (other : Handle) :
    (l.putBack task body).due? other = l.due? other := by
  unfold due? putBack
  rw [Array.getElem?_modify]
  split
  · cases l.slots[other.index]? <;> rfl
  · rfl

theorem owns_of_due? {l : Ledger β} {task : Handle} {x : Cycles × Nat} (h : l.due? task = some x) :
    l.Owns task := by
  obtain ⟨slot, hslot, -⟩ := Option.bind_eq_some_iff.mp h
  obtain ⟨hlt, -⟩ := Array.getElem?_eq_some_iff.mp hslot
  exact hlt

theorem due?_register (l : Ledger β) (body : β) (other : Handle) :
    (l.register body).2.due? other = l.due? other := by
  unfold due? register
  rw [Array.getElem?_push]
  split
  · next h =>
    rw [h, Array.getElem?_eq_none (Nat.le_refl _)]
    rfl
  · rfl

theorem due?_dismiss (l : Ledger β) (task other : Handle) :
    (l.dismiss task).due? other = if task = other then none else l.due? other := by
  unfold dismiss
  split
  · next hnone =>
    split
    · next h => rw [← h, hnone]
    · rfl
  · next hsome => exact due?_note (owns_of_due? hsome) none other

theorem dismiss_dismiss (l : Ledger β) (task : Handle) :
    (l.dismiss task).dismiss task = l.dismiss task := by
  have hnone : (l.dismiss task).due? task = none := by rw [due?_dismiss, if_pos rfl]
  rw [dismiss, hnone]

theorem owns_dismiss {l : Ledger β} {task other : Handle} :
    (l.dismiss task).Owns other ↔ l.Owns other := by
  unfold dismiss
  split
  · rfl
  · change other.index < (l.slots.modify _ _).size ↔ _
    rw [Array.size_modify]
    rfl

/-! ### What a command does -/

theorem cancel_cases {l l' : Ledger β} {task : Handle} (h : l.cancel task = .ok l') :
    l.Owns task ∧ l' = l.dismiss task := by
  unfold cancel at h
  split at h
  · next hown => exact ⟨hown, (Except.ok.inj h).symm⟩
  · simp at h

theorem arm_cases {l l' : Ledger β} {task : Handle} {delay : Cycles}
    (h : l.arm task delay = .ok l') :
    l.Owns task ∧ l' = (l.dismiss task).place task delay := by
  unfold arm at h
  split at h
  · simp at h
  · obtain ⟨l₁, hc, h⟩ := bind_ok h
    obtain ⟨hown, rfl⟩ := cancel_cases hc
    exact ⟨hown, (Except.ok.inj h).symm⟩

theorem rearm_cases {l l' : Ledger β} {task : Handle} {delay : Cycles}
    (h : l.rearm task delay = .ok l') :
    l.Owns task ∧ l' = (l.dismiss task).place task delay := by
  obtain ⟨l₁, hc, ha⟩ := bind_ok h
  obtain ⟨hown, rfl⟩ := cancel_cases hc
  obtain ⟨-, rfl⟩ := arm_cases ha
  exact ⟨hown, by rw [dismiss_dismiss]⟩

/-- A command leaves the ledger alone, strikes an occurrence out, or puts one in afresh. -/
theorem apply_cases {l l' : Ledger β} {c : Command} (h : l.apply c = .ok l') :
    l' = l ∨ (∃ task, l' = l.dismiss task) ∨
      ∃ task delay, l.Owns task ∧ l' = (l.dismiss task).place task delay := by
  cases c with
  | arm task delay => exact Or.inr (Or.inr ⟨task, delay, arm_cases h⟩)
  | rearm task delay => exact Or.inr (Or.inr ⟨task, delay, rearm_cases h⟩)
  | keepArmed task run delay =>
    cases run with
    | false => exact Or.inr (Or.inl ⟨task, (cancel_cases h).2⟩)
    | true =>
      obtain ⟨armed, -, h⟩ := bind_ok h
      cases armed with
      | true => exact Or.inl (Except.ok.inj h).symm
      | false => exact Or.inr (Or.inr ⟨task, delay, arm_cases h⟩)
  | cancel task => exact Or.inr (Or.inl ⟨task, (cancel_cases h).2⟩)

theorem epoch_dismiss (l : Ledger β) (task : Handle) : (l.dismiss task).epoch = l.epoch := by
  unfold dismiss
  split <;> rfl

theorem epoch_of_apply {l l' : Ledger β} {c : Command} (h : l.apply c = .ok l') :
    l'.epoch = l.epoch := by
  rcases apply_cases h with rfl | ⟨task, rfl⟩ | ⟨task, delay, -, rfl⟩
  · rfl
  · exact l.epoch_dismiss task
  · exact l.epoch_dismiss task

/-! ### Sound ledgers -/

/-- What holds of a ledger at all times. -/
structure Sound (l : Ledger β) : Prop where
  /-- A slot notes an occurrence exactly if that is pending. -/
  agrees : ∀ task due turn, l.due? task = some (due, turn) ↔ ⟨due, turn, task⟩ ∈ l.pending
  orderly : l.view.Orderly
  /-- No turn is used twice. -/
  distinct : l.pending.Pairwise fun e f => e.turn ≠ f.turn
  ahead : l.view.Ahead

/-- Where no task is listed twice, removing an entry is removing all those of its task. -/
theorem erase_eq_filter {e : Entry} {entries : List Entry}
    (hsingle : entries.Pairwise fun e f => e.task ≠ f.task) (he : e ∈ entries) :
    entries.erase e = entries.filter (·.task ≠ e.task) := by
  induction entries with
  | nil => simp at he
  | cons f entries ih =>
    rw [List.pairwise_cons] at hsingle
    by_cases hfe : f = e
    · subst hfe
      rw [List.erase_cons_head, List.filter_cons_of_neg (by simp)]
      refine (List.filter_eq_self.mpr ?_).symm
      intro g hg
      simpa using (hsingle.1 g hg).symm
    · have he : e ∈ entries := (List.mem_cons.mp he).resolve_left (Ne.symm hfe)
      have hne : f.task ≠ e.task := hsingle.1 e he
      rw [List.erase_cons_tail (by simpa using hfe), List.filter_cons_of_pos (by simpa using hne),
        ih hsingle.2 he]

namespace Sound

variable {l : Ledger β}

theorem new : ({} : Ledger β).Sound where
  agrees task due turn := by simp [due?]
  orderly := by
    rw [view_new]
    exact .new
  distinct := .nil
  ahead e he := by simp [view] at he

/-- Without its note a task has no occurrence. -/
theorem task_ne (h : l.Sound) {task : Handle} (hnone : l.due? task = none) :
    ∀ e ∈ l.pending, e.task ≠ task := by
  rintro e he rfl
  have hsome := (h.agrees e.task e.due e.turn).mpr he
  rw [hnone] at hsome
  simp at hsome

theorem pending_dismiss (h : l.Sound) (task : Handle) :
    (l.dismiss task).pending = l.pending.filter (·.task ≠ task) := by
  unfold dismiss
  split
  · next hnone =>
    refine (List.filter_eq_self.mpr ?_).symm
    intro e he
    simpa using h.task_ne hnone e he
  · next due turn hsome =>
    exact erase_eq_filter h.orderly.single ((h.agrees task due turn).mp hsome)

theorem dismiss_view (h : l.Sound) (task : Handle) :
    (l.dismiss task).view = l.view.dismiss task := by
  have hpending := h.pending_dismiss task
  unfold dismiss at *
  split
  · next hnone =>
    rw [hnone] at hpending
    unfold view Scheduler.dismiss
    rw [← hpending]
  · next due turn hsome =>
    rw [hsome] at hpending
    unfold view Scheduler.dismiss
    simp only [bodies_note] at hpending ⊢
    rw [hpending]
    rfl

/-! ### What keeps a ledger sound -/

theorem dismiss (h : l.Sound) (task : Handle) : (l.dismiss task).Sound where
  agrees other due turn := by
    rw [due?_dismiss, h.pending_dismiss, List.mem_filter]
    split
    · next heq => simp [heq]
    · next hne => simp [h.agrees, Ne.symm hne]
  orderly := by
    rw [h.dismiss_view]
    exact h.orderly.dismiss task
  distinct := by
    rw [h.pending_dismiss]
    exact h.distinct.filter _
  ahead := by
    rw [h.dismiss_view]
    exact fun e he => h.ahead e (mem_agenda_dismiss.mp he).1

theorem place (h : l.Sound) {task : Handle} (hown : l.Owns task) (hnone : l.due? task = none)
    (delay : Cycles) : (l.place task delay).Sound where
  agrees other due turn := by
    rw [due?_place hown]
    change _ ↔ _ ∈ enter _ l.pending
    rw [mem_enter, Entry.mk.injEq]
    split
    · next heq =>
      -- the occurrence in the next turn is the only one of the task
      subst heq
      have hfree : ⟨due, turn, task⟩ ∉ l.pending := fun hmem => h.task_ne hnone _ hmem rfl
      simp [hfree, eq_comm]
    · next hne => simp [h.agrees, Ne.symm hne]
  orderly := by
    rw [place_view]
    exact h.orderly.place (owns_view.mpr hown) (h.task_ne hnone) delay
  distinct := by
    refine (List.Perm.pairwise_iff (fun hne => hne.symm) (enter_perm _ _)).mpr ?_
    exact List.pairwise_cons.mpr ⟨fun f hf => Nat.ne_of_gt (h.orderly.turn_lt f hf), h.distinct⟩
  ahead := by
    intro e he
    rcases mem_enter.mp he with rfl | he
    · exact count_le_add l.epoch delay
    · exact h.ahead e he

theorem register (h : l.Sound) (body : β) : (l.register body).2.Sound where
  agrees other due turn := by
    rw [due?_register]
    exact h.agrees other due turn
  orderly := by
    rw [(l.register_view body).2]
    exact h.orderly.register body
  distinct := h.distinct
  ahead := h.ahead

/-- With nothing due by the target the clock may be set to it. -/
theorem arrive (h : l.Sound) {target : Cycles} (hidle : ∀ e ∈ l.pending.head?, target < e.due) :
    ({ l with epoch := target } : Ledger β).Sound where
  agrees := h.agrees
  orderly := h.orderly.setEpoch target
  distinct := h.distinct
  ahead := by
    have hlater : ∀ e ∈ l.pending, target.count < e.due.count := h.orderly.later hidle
    exact fun e he => Nat.le_of_lt (hlater e he)

theorem takeOut (h : l.Sound) {e : Entry} {rest : List Entry} (hpending : l.pending = e :: rest) :
    (l.takeOut e).Sound where
  agrees other due turn := by
    have hmem : e ∈ l.pending := by rw [hpending]; exact List.mem_cons_self
    have hsingle : l.pending.Pairwise fun e f => e.task ≠ f.task := h.orderly.single
    have hagrees := h.agrees other due turn
    rw [hpending, List.pairwise_cons] at hsingle
    rw [hpending, List.mem_cons] at hagrees
    rw [due?_takeOut (owns_view.mp (h.orderly.owned e hmem))]
    change _ ↔ _ ∈ l.pending.tail
    rw [hpending, List.tail_cons]
    split
    · -- no other occurrence is of the task that fires
      next heq =>
      subst heq
      constructor
      · intro hnone
        simp at hnone
      · intro hrest
        exact absurd rfl (hsingle.1 ⟨due, turn, e.task⟩ hrest)
    · next hne =>
      rw [hagrees]
      constructor
      · rintro (rfl | hrest)
        · exact absurd rfl hne
        · exact hrest
      · exact Or.inr
  orderly := by
    rw [takeOut_view]
    exact h.orderly.takeOut e
  distinct := h.distinct.sublist (List.tail_sublist _)
  ahead := by
    intro f hf
    have hsorted : l.pending.Pairwise fun e f => e.before f = true := h.orderly.sorted
    have hf : f ∈ l.pending.tail := hf
    rw [hpending, List.pairwise_cons] at hsorted
    rw [hpending] at hf
    exact Entry.due_le_of_before (hsorted.1 f hf)

theorem putBack (h : l.Sound) (task : Handle) (body : β) : (l.putBack task body).Sound where
  agrees other due turn := by
    rw [due?_putBack]
    exact h.agrees other due turn
  orderly := by
    rw [putBack_view]
    exact h.orderly.putBack task body
  distinct := h.distinct
  ahead := h.ahead

/-! ### Requests do what they do to the scheduler -/

theorem cancel_view (h : l.Sound) (task : Handle) :
    l.view.cancel task = (l.cancel task).map view := by
  unfold Scheduler.cancel cancel
  simp only [owns_view]
  split
  · rw [← h.dismiss_view]
    rfl
  · rfl

theorem arm_view (h : l.Sound) (task : Handle) (delay : Cycles) :
    l.view.arm task delay = (l.arm task delay).map view := by
  unfold Scheduler.arm arm
  rw [h.cancel_view]
  split
  · rfl
  · cases l.cancel task with
    | error fault => rfl
    | ok l' => exact congrArg Except.ok (l'.place_view task delay).symm

/-- The note in a slot is the occurrence that a search would find. -/
theorem occurrence?_view (h : l.Sound) (task : Handle) :
    l.view.occurrence? task = (l.due? task).map fun x => ⟨x.1, x.2, task⟩ := by
  apply Option.ext
  intro e
  rw [h.orderly.occurrence?_eq_some, Option.map_eq_some_iff]
  constructor
  · rintro ⟨he, rfl⟩
    exact ⟨_, (h.agrees e.task e.due e.turn).mpr he, rfl⟩
  · rintro ⟨x, hx, rfl⟩
    exact ⟨(h.agrees task x.1 x.2).mp hx, rfl⟩

theorem isArmed_view (h : l.Sound) (task : Handle) : l.view.isArmed task = l.isArmed task := by
  unfold Scheduler.isArmed isArmed
  rw [h.occurrence?_view, Option.isSome_map]
  simp only [owns_view]

theorem remaining_view (h : l.Sound) (task : Handle) :
    l.view.remaining task = l.remaining task := by
  unfold Scheduler.remaining remaining
  rw [h.occurrence?_view, Option.map_map]
  simp only [owns_view]
  rfl

theorem apply_view (h : l.Sound) (c : Command) : c.apply l.view = (l.apply c).map view := by
  cases c with
  | arm task delay => exact h.arm_view task delay
  | rearm task delay =>
    change l.view.rearm task delay = (l.rearm task delay).map view
    unfold Scheduler.rearm rearm
    rw [h.cancel_view]
    unfold cancel
    split
    · exact (h.dismiss task).arm_view task delay
    · rfl
  | keepArmed task run delay =>
    change l.view.keepArmed task run delay = (l.keepArmed task run delay).map view
    unfold Scheduler.keepArmed keepArmed
    rw [h.isArmed_view, h.arm_view, h.cancel_view]
    cases run with
    | false => rfl
    | true =>
      cases l.isArmed task with
      | error fault => rfl
      | ok armed => cases armed <;> rfl
  | cancel task => exact h.cancel_view task

theorem ask_view (h : l.Sound) (q : Query) : q.ask l.view = l.ask q := by
  cases q with
  | epoch | pending | headroom => rfl
  | isArmed task => exact h.isArmed_view task
  | remaining task => exact h.remaining_view task

/-- Every command keeps a ledger sound. -/
theorem apply (h : l.Sound) {c : Command} {l' : Ledger β} (ha : l.apply c = .ok l') : l'.Sound := by
  rcases apply_cases ha with rfl | ⟨task, rfl⟩ | ⟨task, delay, hown, rfl⟩
  · exact h
  · exact h.dismiss task
  · exact (h.dismiss task).place (owns_dismiss.mpr hown) (by rw [due?_dismiss, if_pos rfl]) delay

end Sound

/-! ### What the answers come to -/

/-- The tasks that are armed, by their slots. -/
def armed (l : Ledger β) : List Handle :=
  ((List.range l.slots.size).map Handle.mk).filter fun task => (l.due? task).isSome

theorem nodup_armed (l : Ledger β) : l.armed.Nodup := by
  refine List.Pairwise.filter _ (List.pairwise_map.mpr ?_)
  refine (List.nodup_iff_pairwise_ne.mp List.nodup_range).imp ?_
  intro i j hne heq
  exact hne (congrArg Handle.index heq)

theorem mem_armed {l : Ledger β} {task : Handle} :
    task ∈ l.armed ↔ l.isArmed task = .ok true := by
  have hissued : task ∈ (List.range l.slots.size).map Handle.mk ↔ l.Owns task := by
    rw [List.mem_map]
    constructor
    · rintro ⟨i, hi, rfl⟩
      exact List.mem_range.mp hi
    · intro hown
      exact ⟨task.index, List.mem_range.mpr hown, rfl⟩
  unfold armed isArmed
  rw [List.mem_filter, hissued]
  split
  · next hown => simp [hown]
  · next hown => simp [hown]

/-- The answers of a ledger come to what the slots say, and no difference is cut off at zero. -/
structure Accurate (l : Ledger β) : Prop where
  armed : l.armed.Nodup ∧ ∀ task, task ∈ l.armed ↔ l.isArmed task = .ok true
  /-- As many occurrences are pending as tasks are armed. -/
  pending : l.pending.length = l.armed.length
  /-- The headroom is the least of the waits of the armed tasks. -/
  least : ∀ task wait, l.remaining task = .ok (some wait) → l.headroom ≤ wait
  attained : l.armed ≠ [] → ∃ task ∈ l.armed, l.remaining task = .ok (some l.headroom)
  idle : l.armed = [] → l.headroom = maxHeadroom
  /-- The wait of a task leads from the clock to its due cycle, -/
  remaining : ∀ task due turn, l.due? task = some (due, turn) →
    ∃ wait, l.remaining task = .ok (some wait) ∧ l.epoch.count + wait.count = due.count
  /-- and the headroom to the first due cycle. -/
  headroom : ∀ e ∈ l.pending.head?, l.epoch.count + l.headroom.count = e.due.count

namespace Sound

variable {l : Ledger β}

/-- The armed tasks are those of the pending occurrences. -/
theorem perm_armed (h : l.Sound) : (l.pending.map Entry.task).Perm l.armed := by
  have hsingle : l.pending.Pairwise fun e f => e.task ≠ f.task := h.orderly.single
  have hnodup : (l.pending.map Entry.task).Nodup := List.pairwise_map.mpr hsingle
  refine (List.perm_ext_iff_of_nodup hnodup l.nodup_armed).mpr ?_
  intro task
  rw [mem_armed, ← h.isArmed_view, Scheduler.isArmed, h.occurrence?_view, List.mem_map]
  constructor
  · rintro ⟨e, he, rfl⟩
    rw [if_pos (h.orderly.owned e he), (h.agrees e.task e.due e.turn).mpr he]
    rfl
  · intro hok
    split at hok
    · cases hx : l.due? task with
      | none => simp [hx] at hok
      | some x => exact ⟨⟨x.1, x.2, task⟩, (h.agrees task x.1 x.2).mp hx, rfl⟩
    · simp at hok

theorem remaining_eq (h : l.Sound) {e : Entry} (he : e ∈ l.pending) :
    l.remaining e.task = .ok (some (e.due - l.epoch)) := by
  have hdue := (h.agrees e.task e.due e.turn).mpr he
  rw [remaining, if_pos (owns_of_due? hdue), hdue]
  rfl

theorem mem_of_remaining (h : l.Sound) {task : Handle} {wait : Cycles}
    (hr : l.remaining task = .ok (some wait)) :
    ∃ e ∈ l.pending, e.task = task ∧ wait = e.due - l.epoch := by
  unfold remaining at hr
  split at hr
  · cases hx : l.due? task with
    | none => simp [hx] at hr
    | some x =>
      refine ⟨⟨x.1, x.2, task⟩, (h.agrees task x.1 x.2).mp hx, rfl, ?_⟩
      simpa [hx] using hr.symm
  · simp at hr

/-- A sound ledger gives accurate answers. -/
theorem accurate (h : l.Sound) : l.Accurate where
  armed := ⟨l.nodup_armed, fun _ => mem_armed⟩
  pending := by
    rw [← h.perm_armed.length_eq, List.length_map]
  least task wait hr := by
    obtain ⟨e, he, -, rfl⟩ := h.mem_of_remaining hr
    have hsorted : l.pending.Pairwise fun e f => e.before f = true := h.orderly.sorted
    rw [Cycles.le_iff]
    unfold headroom
    cases hp : l.pending with
    | nil => simp [hp] at he
    | cons f rest =>
      rw [hp] at he hsorted
      change (f.due - l.epoch).count ≤ _
      rw [Cycles.count_sub, Cycles.count_sub]
      rcases List.mem_cons.mp he with rfl | he
      · exact Nat.le_refl _
      · have hle := Entry.due_le_of_before ((List.pairwise_cons.mp hsorted).1 e he)
        omega
  attained hne := by
    have hperm := h.perm_armed
    cases hp : l.pending with
    | nil =>
      rw [hp] at hperm
      exact absurd hperm.nil_eq.symm hne
    | cons e rest =>
      have he : e ∈ l.pending := by rw [hp]; exact List.mem_cons_self
      refine ⟨e.task, hperm.subset (List.mem_map_of_mem he), ?_⟩
      rw [h.remaining_eq he, headroom, hp]
      rfl
  idle hnil := by
    have hperm := h.perm_armed
    rw [hnil, List.perm_nil, List.map_eq_nil_iff] at hperm
    rw [headroom, hperm]
    rfl
  remaining task due turn hdue := by
    have he := (h.agrees task due turn).mp hdue
    have hle : l.epoch.count ≤ due.count := h.ahead _ he
    refine ⟨due - l.epoch, h.remaining_eq he, ?_⟩
    rw [Cycles.count_sub]
    omega
  headroom e he := by
    have hmem : e ∈ l.pending := List.mem_of_mem_head? he
    have hle : l.epoch.count ≤ e.due.count := h.ahead e hmem
    rw [Option.mem_def] at he
    rw [Ledger.headroom, he]
    change l.epoch.count + (e.due - l.epoch).count = _
    rw [Cycles.count_sub]
    omega

end Sound

end Ledger

end Cassette.Scheduler
