import Cassette.Acia.Basic
import Cassette.Proofs.Acia.Deck
import Cassette.Proofs.Scheduler.Budget

/-!
# The timers of the chip

Whatever tape is in the deck and whatever answers on the line, a timer that fires acts on the
chip and is armed again or not, and never faults.  The chip's timers are the same three for
ever, at most one firing of each happens on a cycle, and so the limit that the chip sets
itself is high enough below the end of time.

## Main definitions

* `Timer.act` — what a timer does on the chip, and after what delay it fires again.
* `Timer.renew` — the timers after a firing.
* `Timed` — what holds of the timers and the chip between two firings.

## Main results

* `fire_eq` — a firing is an act and a renewal.
* `Timed.fire` — a firing comes to its end and keeps what holds.
* `Timed.induct` — what every act keeps is kept by an advance.
* `Timed.advance` — an advance comes to its end too.
-/

namespace Cassette.Acia

variable {ρ : Type}

/-! ### Acts -/

namespace Timer

/-- What a timer that fires on cycle `now` does on the chip, and the delay after which it fires
again. -/
def act [SerialPeer ρ] (now : Cycles) (c : Chip ρ) : Timer → Option Cycles × Chip ρ
  | .transmit => (none, { c with status := { c.status with transmitEmpty := true } })
  | .tape => c.pollTape now
  | .rs423 =>
    if c.rs423Selected then (some (c.pollPeer now).byteTime, c.pollPeer now) else (none, c)

section

variable [SerialPeer ρ] (now : Cycles) (c : Chip ρ)

theorem act_tape : Timer.tape.act now c = c.pollTape now := rfl

theorem act_rs423 : Timer.rs423.act now c
    = if c.rs423Selected then (some (c.pollPeer now).byteTime, c.pollPeer now) else (none, c) := rfl

end

theorem byteTime_ne_zero (c : Chip ρ) : c.byteTime ≠ 0 := by
  unfold Chip.byteTime
  dsimp only
  split
  · decide
  · next h => exact h

theorem act_ne_zero [SerialPeer ρ] (timer : Timer) (now : Cycles) (c : Chip ρ) {delay : Cycles}
    (h : (timer.act now c).1 = some delay) : delay ≠ 0 := by
  cases timer with
  | transmit => simp [act] at h
  | tape =>
    simp only [act, Chip.pollTape] at h
    split at h
    · next tape _ _ =>
      obtain ⟨p, hp, hdelay⟩ := tape.getLast?_run c.control
      rw [hp] at h
      intro hzero
      cases hd : p.delay with
      | error e => simp [hd, Except.toOption] at h
      | ok d =>
        simp only [hd, Option.bind, Except.toOption, Option.some.injEq] at h
        rw [hd, h, hzero] at hdelay
        exact hdelay rfl
    · simp at h
  | rs423 =>
    simp only [act] at h
    split at h
    · rw [← Option.some.inj h]
      exact byteTime_ne_zero _
    · simp at h

/-- The timers with `task` armed afresh, if there is a delay. -/
def renew (s : Scheduler Timer) (task : Handle) : Option Cycles → Scheduler Timer
  | none => s
  | some delay => (s.dismiss task).place task delay

/-- A timer that is armed afresh is due a delay after the present. -/
theorem mem_agenda_renew {s : Scheduler Timer} {task : Handle} {delay? : Option Cycles} {f : Entry}
    (h : f ∈ (renew s task delay?).agenda) : f ∈ s.agenda ∨ ∃ delay, f.due = s.epoch + delay := by
  cases delay? with
  | none => exact Or.inl h
  | some delay =>
    rcases Scheduler.mem_enter.mp h with rfl | hkept
    · exact Or.inr ⟨delay, rfl⟩
    · exact Or.inl (Scheduler.mem_agenda_dismiss.mp hkept).1

theorem run_arm {poll : Cycles → Scheduler Timer → Chip ρ →
      Except (Scheduler.Fault × Chip ρ) (Scheduler Timer × Chip ρ)} {s : Scheduler Timer}
    {task : Handle} (hown : s.Owns task) {delay : Cycles} (hdelay : delay ≠ 0) (timer : Timer)
    (c : Chip ρ) :
    (Scheduler.Routine.command (.arm task delay) (.finish timer)).run poll s c
      = .ok (timer, renew s task (some delay), c) := by
  rw [Scheduler.Routine.run, Scheduler.Command.apply, Scheduler.arm_eq, if_neg hdelay, if_pos hown]
  rfl

/-- A routine acts, and arms its timer again if there is a delay. -/
theorem run_routine [SerialPeer ρ]
    {poll : Cycles → Scheduler Timer → Chip ρ →
      Except (Scheduler.Fault × Chip ρ) (Scheduler Timer × Chip ρ)}
    (timer : Timer) {s : Scheduler Timer} {task : Handle} (hown : s.Owns task) (c : Chip ρ) :
    (timer.routine task).run poll s c
      = .ok (timer, renew s task (timer.act s.epoch c).1, (timer.act s.epoch c).2) := by
  cases timer with
  | transmit => rfl
  | tape =>
    have hne : ∀ delay, (c.pollTape s.epoch).1 = some delay → delay ≠ 0 :=
      fun _ => act_ne_zero .tape s.epoch c
    unfold act routine
    simp only [Scheduler.Routine.run, Scheduler.Query.ask]
    cases hd : (c.pollTape s.epoch).1 with
    | none => rfl
    | some delay => exact run_arm hown (hne delay hd) .tape _
  | rs423 =>
    change Scheduler.Routine.run poll (if c.rs423Selected then _ else _) s c = _
    unfold act
    by_cases hsel : c.rs423Selected = true
    · rw [if_pos hsel, if_pos hsel]
      exact run_arm hown (byteTime_ne_zero _) .rs423 _
    · rw [if_neg hsel, if_neg hsel]
      rfl

theorem neverPoll_routine [SerialPeer ρ] : Scheduler.NeverPoll (@routine ρ _) := by
  intro timer task
  cases timer with
  | transmit => exact .read fun _ => .write _ (.finish _)
  | tape =>
    refine .ask _ fun now => .read fun c => ?_
    dsimp only
    refine .write _ ?_
    split
    · exact .command _ (.finish _)
    · exact .finish _
  | rs423 =>
    refine .ask _ fun now => .read fun c => ?_
    split
    · exact .write _ (.command _ (.finish _))
    · exact .finish _

/-- The bodies of the tasks, each in its place. -/
def bodies : Array (Option Timer) := #[some .transmit, some .tape, some .rs423]

/-- The timer of a task. -/
theorem exists_of_owns {s : Scheduler Timer} (hbodies : s.bodies = bodies) {task : Handle}
    (h : s.Owns task) : ∃ timer : Timer, task = timer.id ∧ s.body? task = some timer := by
  have hlt : task.index < 3 := by
    unfold Scheduler.Owns at h
    rwa [hbodies] at h
  unfold Scheduler.body?
  rw [hbodies]
  obtain ⟨index⟩ := task
  match index, hlt with
  | 0, _ => exact ⟨.transmit, rfl, rfl⟩
  | 1, _ => exact ⟨.tape, rfl, rfl⟩
  | 2, _ => exact ⟨.rs423, rfl, rfl⟩

/-- With its body out of its place and back in it, a timer is where it was. -/
theorem bodies_restore (timer : Timer) :
    (bodies.setIfInBounds timer.id.index none).setIfInBounds timer.id.index (some timer)
      = bodies := by
  cases timer <;> rfl

/-- A firing is an act and a renewal. -/
theorem fire_eq [SerialPeer ρ] {s : Scheduler Timer} {e : Entry} (hown : s.Owns e.task)
    {timer : Timer} (hbody : s.body? e.task = some timer) (c : Chip ρ) :
    Scheduler.fire routine e s c
      = .ok ((renew (s.takeOut e) e.task (timer.act e.due c).1).putBack e.task timer,
          (timer.act e.due c).2) := by
  unfold Scheduler.fire
  rw [hbody]
  simp only [run_routine timer (Scheduler.owns_takeOut.mpr hown) c]
  rfl

theorem bodies_renew (s : Scheduler Timer) (task : Handle) (delay? : Option Cycles) :
    (renew s task delay?).bodies = s.bodies := by
  cases delay? <;> rfl

theorem orderly_renew {s : Scheduler Timer} (h : s.Orderly) {task : Handle} (hown : s.Owns task)
    (delay? : Option Cycles) : (renew s task delay?).Orderly := by
  cases delay? with
  | none => exact h
  | some delay =>
    exact (h.dismiss task).place hown (fun e he => (Scheduler.mem_agenda_dismiss.mp he).2) delay

theorem lost_act [SerialPeer ρ] (timer : Timer) (now : Cycles) {c : Chip ρ} (h : c.Lost) :
    (timer.act now c).2.Lost := by
  cases timer with
  | transmit => exact h
  | tape => exact lost_pollTape now h
  | rs423 =>
    unfold act
    by_cases hsel : c.rs423Selected = true
    · rw [if_pos hsel]
      exact (sameDeck_pollPeer now c).lost h
    · rw [if_neg hsel]
      exact h

end Timer

/-! ### Firings -/

/-- What holds of the timers and the chip between two firings. -/
structure Timed (s : Scheduler Timer) (c : Chip ρ) : Prop where
  orderly : s.Orderly
  bodies : s.bodies = Timer.bodies
  lost : c.Lost

namespace Timed

variable {s : Scheduler Timer} {c : Chip ρ}

theorem length_le (h : Timed s c) : s.agenda.length ≤ 3 := by
  have hle := h.orderly.length_le
  rwa [h.bodies] at hle

/-- The first entry is for one of the timers. -/
theorem exists_timer (h : Timed s c) {e : Entry} {rest : List Entry} (hs : s.agenda = e :: rest) :
    s.Owns e.task ∧ ∃ timer : Timer, e.task = timer.id ∧ s.body? e.task = some timer := by
  have hown : s.Owns e.task := h.orderly.owned e (by rw [hs]; exact List.mem_cons_self)
  exact ⟨hown, Timer.exists_of_owns h.bodies hown⟩

variable [SerialPeer ρ]

/-- A firing comes to its end, and what holds before holds after it. -/
theorem fire (h : Timed s c) {e : Entry} {rest : List Entry} (hs : s.agenda = e :: rest) :
    ∃ s' c', Scheduler.fire Timer.routine e s c = .ok (s', c') ∧ Timed s' c' := by
  obtain ⟨hown, timer, htask, hbody⟩ := h.exists_timer hs
  refine ⟨_, _, Timer.fire_eq hown hbody c, ?_, ?_, timer.lost_act e.due h.lost⟩
  · exact (Timer.orderly_renew (h.orderly.takeOut e) (Scheduler.owns_takeOut.mpr hown) _).putBack
      e.task timer
  · change ((Timer.renew (s.takeOut e) e.task _).bodies.setIfInBounds _ _) = _
    rw [Timer.bodies_renew]
    change (s.bodies.setIfInBounds _ _).setIfInBounds _ _ = _
    rw [h.bodies, htask, Timer.bodies_restore]

/-- What holds before an advance holds after it, and nothing is due any more. -/
theorem of_advance (h : Timed s c) {limit : Nat} {target : Cycles} {s' : Scheduler Timer}
    {c' : Chip ρ} (hadv : Scheduler.advance Timer.routine limit target s c = .ok (s', c')) :
    Timed s' c' ∧ s'.epoch = target ∧ ∀ e ∈ s'.agenda, target.count < e.due.count := by
  have hfire : ∀ {s s' : Scheduler Timer} {c c' : Chip ρ} {e : Entry} {rest : List Entry},
      Timed s c → s.agenda = e :: rest → ¬ target < e.due →
      Scheduler.fire Timer.routine e s c = .ok (s', c') → Timed s' c' := by
    intro s s' c c' e rest h hs _ hf
    obtain ⟨s₁, c₁, hf₁, h₁⟩ := h.fire hs
    rw [hf₁] at hf
    obtain ⟨rfl, rfl⟩ := Prod.mk.inj (Except.ok.inj hf)
    exact h₁
  obtain ⟨s₁, h₁, rfl, hidle⟩ :=
    Scheduler.advance_induct Timer.neverPoll_routine Timed hfire h hadv
  exact ⟨⟨h₁.orderly.setEpoch target, h₁.bodies, h₁.lost⟩, rfl, h₁.orderly.later hidle⟩

section

variable (P : Scheduler Timer → Chip ρ → Prop) {target : Cycles}
  (hact : ∀ {s : Scheduler Timer} {c : Chip ρ} {e : Entry} {rest : List Entry} {timer : Timer},
    Timed s c → P s c → s.agenda = e :: rest → e.task = timer.id → ¬ target < e.due →
    P ((Timer.renew (s.takeOut e) e.task (timer.act e.due c).1).putBack e.task timer)
      (timer.act e.due c).2)

include hact

/-- What every act keeps is kept by a firing. -/
theorem keeps {s s' : Scheduler Timer} {c c' : Chip ρ} {e : Entry} {rest : List Entry}
    (h : Timed s c ∧ P s c) (hs : s.agenda = e :: rest) (hdue : ¬ target < e.due)
    (hf : Scheduler.fire Timer.routine e s c = .ok (s', c')) : Timed s' c' ∧ P s' c' := by
  obtain ⟨hown, timer, htask, hbody⟩ := h.1.exists_timer hs
  obtain ⟨s₁, c₁, hf₁, htimed⟩ := h.1.fire hs
  rw [hf₁] at hf
  obtain ⟨rfl, rfl⟩ := Prod.mk.inj (Except.ok.inj hf)
  rw [Timer.fire_eq hown hbody] at hf₁
  obtain ⟨rfl, rfl⟩ := Prod.mk.inj (Except.ok.inj hf₁)
  exact ⟨htimed, hact h.1 h.2 hs htask hdue⟩

/-- What every act keeps is kept until the clock reaches its target, and then nothing is due. -/
theorem induct {s s' : Scheduler Timer} {c c' : Chip ρ} (h : Timed s c) (hP : P s c) {limit : Nat}
    (hadv : Scheduler.advance Timer.routine limit target s c = .ok (s', c')) :
    ∃ s₁, P s₁ c' ∧ s' = { s₁ with epoch := target } := by
  obtain ⟨s₁, ⟨-, hP⟩, hs', -⟩ := Scheduler.advance_induct Timer.neverPoll_routine
    (fun s c => Timed s c ∧ P s c) (keeps P hact) ⟨h, hP⟩ hadv
  exact ⟨s₁, hP, hs'⟩

end

/-- Below the end of time the limit has to cover three firings for each cycle. -/
theorem advance (h : Timed s c) {target : Cycles} (hlast : target.count < Cycles.last.count)
    (hahead : s.Ahead) {limit : Nat} (hlimit : 3 * (target.count + 1 - s.epoch.count) ≤ limit) :
    ∃ s' c', Scheduler.advance Timer.routine (limit + 1) target s c = .ok (s', c') := by
  have hP : ∀ {s : Scheduler Timer} {c : Chip ρ}, Timed s c → s.Orderly ∧ s.agenda.length ≤ 3 :=
    fun h => ⟨h.orderly, h.length_le⟩
  refine Scheduler.advance_within Timer.neverPoll_routine Timed hlast hP ?_ h ?_
  · intro s c e rest h hs
    exact h.fire hs
  · have hcrowd := Nat.le_trans s.crowd_le h.length_le
    have hdistance := Nat.mul_le_mul_left 3 (hahead.distance_le target)
    omega

/-- The RS423 line does not look at the deck. -/
theorem pollPeer_deckError (now : Cycles) (c : Chip ρ) (error : Option Tape.Error) :
    Chip.pollPeer now { c with deckError := error }
      = { c.pollPeer now with deckError := error } := by
  have hnone : ∀ c : Chip ρ, c.peer = none → c.pollPeer now = c := by
    intro c hpeer
    unfold Chip.pollPeer
    rw [hpeer]
  by_cases hpeer : c.peer = none
  · have hother : Chip.pollPeer now { c with deckError := error } = { c with deckError := error } :=
      hnone _ hpeer
    rw [hother, hnone c hpeer]
  · obtain ⟨peer, hpeer⟩ := Option.ne_none_iff_exists'.mp hpeer
    unfold Chip.pollPeer
    dsimp only
    rw [hpeer]
    dsimp only
    cases (SerialPeer.offer peer (Control.requestToSend c.control)).1 <;> rfl

/-- With an empty deck, no timer minds why the deck lost its tape. -/
theorem act_of_empty (timer : Timer) (now : Cycles) (hdeck : c.deck = none)
    (error : Option Tape.Error) :
    timer.act now { c with deckError := error }
        = ((timer.act now c).1, { (timer.act now c).2 with deckError := error }) ∧
      (timer.act now c).2.deck = none ∧ (timer.act now c).2.deckError = c.deckError := by
  cases timer with
  | transmit => exact ⟨rfl, hdeck, rfl⟩
  | tape =>
    have hother : Chip.pollTape now { c with deckError := error }
        = (none, { c with deckError := error }) := pollTape_of_idle now (Or.inr hdeck)
    rw [Timer.act_tape, Timer.act_tape, hother, pollTape_of_idle now (Or.inr hdeck)]
    exact ⟨rfl, hdeck, rfl⟩
  | rs423 =>
    have hsame := sameDeck_pollPeer now c
    rw [Timer.act_rs423, Timer.act_rs423, pollPeer_deckError]
    dsimp only
    by_cases hsel : c.rs423Selected = true
    · rw [if_pos hsel, if_pos hsel]
      exact ⟨rfl, hsame.deck.trans hdeck, hsame.deckError⟩
    · rw [if_neg hsel, if_neg hsel]
      exact ⟨rfl, hdeck, rfl⟩

/-- With an empty deck, neither does an advance. -/
theorem advance_of_empty (h : Timed s c) (hdeck : c.deck = none) (error : Option Tape.Error)
    {limit : Nat} {target : Cycles} {s' : Scheduler Timer} {c' : Chip ρ}
    (hadv : Scheduler.advance Timer.routine limit target s c = .ok (s', c')) :
    Scheduler.advance Timer.routine limit target s { c with deckError := error }
        = .ok (s', { c' with deckError := error }) ∧ c'.deckError = c.deckError := by
  induction limit generalizing s c with
  | zero => simp [Scheduler.advance] at hadv
  | succ limit ih =>
    by_cases hidle : ∀ e ∈ s.agenda.head?, target < e.due
    · rw [Scheduler.advance_of_idle hidle] at hadv ⊢
      obtain ⟨rfl, rfl⟩ := Prod.mk.inj (Except.ok.inj hadv)
      exact ⟨rfl, rfl⟩
    · obtain ⟨e, rest, hs, hdue⟩ := Scheduler.exists_due hidle
      obtain ⟨hown, timer, -, hbody⟩ := h.exists_timer hs
      obtain ⟨hact, hdeck', herror'⟩ := act_of_empty timer e.due hdeck error
      obtain ⟨s₁, c₁, hfire, h₁⟩ := h.fire hs
      have heq := Timer.fire_eq hown hbody c
      rw [hfire] at heq
      obtain ⟨hs₁, hc₁⟩ := Prod.mk.inj (Except.ok.inj heq)
      rw [Scheduler.advance_cons Timer.neverPoll_routine hs hdue, hfire] at hadv
      rw [Scheduler.advance_cons Timer.neverPoll_routine hs hdue,
        Timer.fire_eq hown hbody { c with deckError := error }, hact, ← hs₁, ← hc₁]
      rw [← hc₁] at hdeck' herror'
      obtain ⟨hadv', herror⟩ := ih h₁ hdeck' hadv
      exact ⟨hadv', herror.trans herror'⟩

/-- The clock may stop on the way for the loss of a tape to be reported. -/
theorem advance_report (h : Timed s c) {first second : Cycles}
    (hle : first.count ≤ second.count) {limit more : Nat} {s₁ s₂ : Scheduler Timer}
    {c₁ c₂ : Chip ρ} (h₁ : Scheduler.advance Timer.routine limit first s c = .ok (s₁, c₁))
    (h₂ : Scheduler.advance Timer.routine more second s₁ { c₁ with deckError := none }
      = .ok (s₂, c₂)) :
    Scheduler.advance Timer.routine (limit + more) second s c
        = .ok (s₂, { c₂ with deckError := c₁.deckError.or c₂.deckError }) ∧
      (c₁.deckError = none ∨ c₂.deckError = none) := by
  have htimed := (h.of_advance h₁).1
  have hrest : Scheduler.advance Timer.routine more second s₁ c₁
        = .ok (s₂, { c₂ with deckError := c₁.deckError.or c₂.deckError }) ∧
      (c₁.deckError = none ∨ c₂.deckError = none) := by
    cases herror : c₁.deckError with
    | none =>
      have hsame : { c₁ with deckError := none } = c₁ := by rw [← herror]
      rw [hsame] at h₂
      exact ⟨h₂, Or.inl rfl⟩
    | some e =>
      -- the tape is lost, so the rest of the way does not depend on the report
      have hdeck : c₁.deck = none := htimed.lost (by rw [herror]; simp)
      have htimed' : Timed s₁ { c₁ with deckError := none } :=
        ⟨htimed.orderly, htimed.bodies, fun _ => hdeck⟩
      obtain ⟨hadv, hnone⟩ := htimed'.advance_of_empty hdeck (some e) h₂
      have hsame : { c₁ with deckError := some e } = c₁ := by rw [← herror]
      refine ⟨?_, Or.inr hnone⟩
      rw [← hsame]
      exact hadv
  refine ⟨?_, hrest.2⟩
  have hover : ¬ Scheduler.Overruns (Scheduler.advance Timer.routine more second s₁ c₁) := by
    rintro ⟨context, hx⟩
    rw [hrest.1] at hx
    simp at hx
  rw [Scheduler.advance_advance Timer.neverPoll_routine hle h₁ hover]
  exact hrest.1

end Timed

end Cassette.Acia
