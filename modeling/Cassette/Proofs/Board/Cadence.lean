import Cassette.Proofs.Acia.Cadence
import Cassette.Proofs.Board.Delivery
import Cassette.Proofs.Board.Regular

/-!
# A tape that plays

A tape plays from the moment when the motor starts with the tape in the deck, or when a tape goes
into the deck while the motor runs, up to the moment when the motor stops or the deck is handled.
For all that time it is polled when it is due, whatever else happens to the board and however the
host cuts the time; and a tape that does not play is not polled.

## Main definitions

* `Board.Starts` — an operation with which a tape starts to play.
* `Board.Continues` — an operation that lets a tape play on.

## Main results

* `Course.inTime` — a tape that plays on keeps its cadence.
* `Reachable.exists_start` — with the motor on and a tape in the deck, the tape has started to play
  and has been let play on.
* `Reachable.cadence` — **the polls of a tape are exact, and there are no others.**
-/

namespace Cassette

namespace Board

variable {ρ : Type}

/-! ### Starting and playing on -/

/-- The motor after an operation, if it is `on` before. -/
def Operation.motor (on : Bool) : Operation ρ → Bool
  | .switchMotor on => on
  | .ulaWrite value => (SerialUla.mk value).motorOn
  | .ulaRead => (SerialUla.mk SerialUla.busValue).motorOn
  | _ => on

/-- A tape goes into the deck. -/
def Loads (b : Board ρ) : Operation ρ → Bool
  | .insert data clock => (Tape.load data clock).2.toOption.isSome
  | .reinsert => b.shelf.isSome
  | _ => false

/-- With the operation a tape starts to play: the motor starts, or a tape goes into the deck while
it runs. -/
def Starts (b : Board ρ) (op : Operation ρ) : Prop :=
  (b.acia.chip.motorOn = false ∧ op.motor false = true ∧ b.acia.chip.deck.isSome = true) ∨
    (b.acia.chip.motorOn = true ∧ b.Loads op = true)

/-- The operation neither stops the motor nor handles the deck. -/
def Continues (b : Board ρ) (op : Operation ρ) : Prop :=
  op.motor true = true ∧ b.Loads op = false ∧ op ≠ .eject

/-- A deck that nothing is put into or taken out of stays as full as it is. -/
theorem isSome_handled {b : Board ρ} {op : Operation ρ} (hloads : b.Loads op = false)
    (heject : op ≠ .eject) : (b.handled op).1.isSome = b.acia.chip.deck.isSome := by
  cases op with
  | insert data clock =>
    simp only [Loads] at hloads
    simp only [handled]
    split
    · next tape hload => simp [hload, Except.toOption] at hloads
    · rfl
  | eject => exact absurd rfl heject
  | reinsert =>
    have hshelf : b.shelf = none := by simpa [Loads] using hloads
    simp only [handled, hshelf]
  | rewind => exact Option.isSome_map
  | _ => rfl

variable [Acia.SerialPeer ρ]

theorem perform_motorOn {b b' : Board ρ} (hb : b.Reachable) {op : Operation ρ} {reply : Reply}
    (h : b.perform op = .ok (reply, b')) :
    b'.acia.chip.motorOn = op.motor b.acia.chip.motorOn := by
  have hstanding := perform_standing hb h
  refine (congrArg (·.motorOn) hstanding).trans ?_
  cases op with
  | write address value =>
    simp only [Operation.setUp]
    split
    · rfl
    · split <;> rfl
  | _ => rfl

/-- The tape that starts to play is due on the next cycle. -/
theorem tapeDue_of_starts {b : Board ρ} (hb : b.Reachable) {op : Operation ρ} (h : b.Starts op) :
    Acia.Timer.tape.due? (b.outcome op).timers = some (b.acia.now + 1) := by
  rcases h with ⟨hmotor, hon, hdeck⟩ | ⟨hmotor, hloads⟩
  · have hrouted (u : SerialUla) (hu : u.motorOn = true) :
        Acia.Timer.tape.due? (b.acia.routed u).timers = some (b.acia.now + 1) := by
      have hstarted := Acia.tapeDue_switched (b.acia.rated u.receiveRate)
        (hb.wired.rated _) (by rw [Acia.rated]; split <;> exact hmotor)
        (by rw [Acia.rated]; split <;> exact hdeck)
      unfold Acia.routed
      rw [Acia.tapeDue_selected, hu, hstarted, Acia.now_rated]
    cases op with
    | switchMotor on =>
      obtain rfl : on = true := hon
      exact Acia.tapeDue_switched b.acia hb.wired hmotor hdeck
    | ulaWrite value => exact hrouted _ hon
    | ulaRead => exact hrouted _ hon
    | _ => exact absurd hon Bool.false_ne_true
  · cases op with
    | insert data clock =>
      obtain ⟨⟨told, opened⟩, hload⟩ : ∃ image, Tape.load data clock = image := ⟨_, rfl⟩
      simp only [Loads, hload] at hloads
      change Acia.Timer.tape.due? (b.acia.opened (Tape.load data clock)).timers = _
      rw [hload]
      cases opened with
      | error e => exact absurd hloads Bool.false_ne_true
      | ok tape =>
        have htold : (b.acia.tell told).chip.motorOn = true :=
          (congrArg (·.motorOn) (Acia.standing_tell b.acia told)).trans hmotor
        refine (Acia.tapeDue_loaded _ tape htold).trans ?_
        unfold Acia.now
        rw [Acia.timers_tell]
    | reinsert =>
      obtain ⟨tape, hshelf⟩ := Option.isSome_iff_exists.mp hloads
      change Acia.Timer.tape.due? (b.shelf.elim b.acia b.acia.loaded).timers = _
      rw [hshelf]
      exact Acia.tapeDue_loaded b.acia tape hmotor
    | _ => exact absurd hloads Bool.false_ne_true

/-- A tape that plays on stays due when it was. -/
theorem tapeDue_of_continues {b : Board ρ} (hmotor : b.acia.chip.motorOn = true)
    {op : Operation ρ} (h : b.Continues op) :
    Acia.Timer.tape.due? (b.outcome op).timers = Acia.Timer.tape.due? b.acia.timers := by
  obtain ⟨hon, hloads, heject⟩ := h
  have hrouted (u : SerialUla) (hu : u.motorOn = true) :
      Acia.Timer.tape.due? (b.acia.routed u).timers = Acia.Timer.tape.due? b.acia.timers := by
    have hsame : u.motorOn = (b.acia.rated u.receiveRate).chip.motorOn := by
      rw [Acia.rated]
      split <;> exact hu.trans hmotor.symm
    unfold Acia.routed
    rw [Acia.tapeDue_selected, Acia.timers_switched_self _ hsame, Acia.timers_rated]
  cases op with
  | read address =>
    simp only [outcome, Acia.read]
    split <;> rfl
  | write address value => exact Acia.tapeDue_written b.acia address value
  | selectRs423 selected => exact Acia.tapeDue_selected b.acia selected
  | switchMotor on =>
    exact congrArg _ (Acia.timers_switched_self _ (Eq.trans hon hmotor.symm))
  | setReceiveRate rate => exact congrArg _ (Acia.timers_rated b.acia rate)
  | insert data clock =>
    obtain ⟨⟨told, opened⟩, hload⟩ : ∃ image, Tape.load data clock = image := ⟨_, rfl⟩
    simp only [Loads, hload] at hloads
    change Acia.Timer.tape.due? (b.acia.opened (Tape.load data clock)).timers = _
    rw [hload]
    cases opened with
    | error e => exact congrArg _ (Acia.timers_tell b.acia told)
    | ok tape => simp [Except.toOption] at hloads
  | eject => exact absurd rfl heject
  | reinsert =>
    have hshelf : b.shelf = none := by simpa [Loads] using hloads
    change Acia.Timer.tape.due? (b.shelf.elim b.acia b.acia.loaded).timers = _
    rw [hshelf]
    rfl
  | rewind => exact congrArg _ (Acia.timers_rewind b.acia)
  | ulaWrite value => exact hrouted _ hon
  | ulaRead => exact hrouted _ hon
  | reset | setCarrier | receive | poll | ulaReset | attachPeer | attachTone | attachNoise => rfl

/-- Only the passing of time polls a tape. -/
theorem deckPolls_of_steps {b b' : Board ρ} {op : Operation ρ} {reply : Reply}
    (h : b.perform op = .ok (reply, b')) (hop : ∀ cycles, op ≠ .poll cycles) :
    b'.acia.chip.deckPolls = b.acia.chip.deckPolls :=
  (perform_steps h hop).1.sameDeck.deckPolls

/-! ### The cadence -/

/-- A tape that plays on keeps its cadence. -/
theorem Course.inTime {b b' : Board ρ} (hb : b.Reachable) (h : Course Continues b b')
    (hmotor : b.acia.chip.motorOn = true) {due? : Option Nat} {polled : List Acia.DeckPoll}
    (htime : Acia.InTime due? polled b.acia.timers b.acia.chip)
    (hlast : b'.acia.now.count < Cycles.last.count) :
    b'.acia.chip.motorOn = true ∧ Acia.InTime due? polled b'.acia.timers b'.acia.chip := by
  induction h with
  | refl => exact ⟨hmotor, htime⟩
  | @perform b₁ b₂ h op reply hop hperform ih =>
    have hb₁ := h.reachable hb
    have hnow := perform_now_le hb₁.sound hperform
    obtain ⟨hmotor₁, htime₁⟩ := ih (Nat.lt_of_le_of_lt hnow hlast)
    refine ⟨?_, ?_⟩
    · rw [perform_motorOn hb₁ hperform, hmotor₁]
      exact hop.1
    · rcases perform_cases hperform with ⟨cycles, e, rfl, hpoll, -⟩ | hcycles
      · obtain ⟨timers, chip, hadv, -, ha⟩ := Acia.Sound.poll_ok hpoll
        have hclock : b₂.acia.now = b₁.acia.now + cycles := perform_now hb₁.sound hperform
        rw [hclock] at hlast
        have htime₂ := htime₁.advance hb₁.wired hb₁.sound.timed hlast hadv
        rw [ha]
        exact htime₂
      · refine htime₁.congr (deckPolls_of_steps hperform hcycles) ?_
        rw [perform_outcome hb₁.sound hb₁.transmitDelay_ne_zero hperform hcycles]
        exact tapeDue_of_continues hmotor₁ hop
  | shelve _ _ ih => exact ih hlast

/-- The polls of a tape that plays, from its start on. -/
theorem Starts.inTime {b b₁ b₂ : Board ρ} (hb : b.Reachable) {op : Operation ρ} {reply : Reply}
    (hop : b.Starts op) (hperform : b.perform op = .ok (reply, b₁))
    (hcourse : Course Continues b₁ b₂) (hlast : b₂.acia.now.count < Cycles.last.count) :
    b₂.acia.chip.motorOn = true ∧ Acia.InTime (some (b.acia.now.count + 1))
      b.acia.chip.deckPolls b₂.acia.timers b₂.acia.chip := by
  have hcycles : ∀ cycles, op ≠ .poll cycles := by
    rintro cycles rfl
    rcases hop with ⟨-, hon, -⟩ | ⟨-, hloads⟩
    · exact absurd hon Bool.false_ne_true
    · exact absurd hloads Bool.false_ne_true
  refine hcourse.inTime (hb.perform hperform) ?_ ⟨[], _, ?_, rfl, ?_⟩ hlast
  · rw [perform_motorOn hb hperform]
    rcases hop with ⟨hmotor, hon, -⟩ | ⟨hmotor, hloads⟩
    · rw [hmotor]
      exact hon
    · rw [hmotor]
      cases op with
      | insert | reinsert => rfl
      | _ => exact absurd hloads Bool.false_ne_true
  · rw [deckPolls_of_steps hperform hcycles, List.append_nil]
  · rw [perform_outcome hb.sound hb.transmitDelay_ne_zero hperform hcycles,
      tapeDue_of_starts hb hop]
    rfl

/-- With the motor on and a tape in the deck, the tape has started to play at some time, and since
then has been let play on. -/
theorem Reachable.exists_start {b : Board ρ} (hb : b.Reachable)
    (hmotor : b.acia.chip.motorOn = true) (hdeck : b.acia.chip.deck.isSome = true) :
    ∃ (b₀ : Board ρ) (op : Operation ρ) (reply : Reply) (b₁ : Board ρ), b₀.Reachable ∧
      b₀.Starts op ∧ b₀.perform op = .ok (reply, b₁) ∧ Course Continues b₁ b := by
  induction hb with
  | start h =>
    obtain ⟨-, -, hacia⟩ := ofConfig_eq h
    rw [hacia] at hmotor
    exact absurd hmotor Bool.false_ne_true
  | shelve hb shelf ih =>
    obtain ⟨b₀, op, reply, b₁, hb₀, hop, hperform, hcourse⟩ := ih hmotor hdeck
    exact ⟨b₀, op, reply, b₁, hb₀, hop, hperform, hcourse.shelve shelf⟩
  | @perform b b' hb op reply h ih =>
    by_cases hstarts : b.Starts op
    · exact ⟨b, op, reply, b', hb, hstarts, h, .refl⟩
    · -- otherwise the tape has been playing before
      rw [perform_motorOn hb h] at hmotor
      have hloads : b.Loads op = false := by
        refine eq_false_of_ne_true fun hloads => hstarts (Or.inr ⟨?_, hloads⟩)
        cases op with
        | insert | reinsert => exact hmotor
        | _ => exact absurd hloads Bool.false_ne_true
      have heject : op ≠ .eject := by
        rintro rfl
        rw [(perform_steps h (by simp)).1.sameDeck.deck] at hdeck
        exact absurd hdeck Bool.false_ne_true
      have hdeck : b.acia.chip.deck.isSome = true := by
        rcases perform_cases h with ⟨cycles, e, rfl, hpoll, -⟩ | hcycles
        · rw [Option.isSome_iff_ne_none] at hdeck ⊢
          exact fun hnone => hdeck ((Acia.playsOn_poll hb.sound hpoll).empty hnone)
        · rw [(perform_steps h hcycles).1.sameDeck.deck] at hdeck
          exact (isSome_handled hloads heject).symm.trans hdeck
      have hrunning : b.acia.chip.motorOn = true := by
        refine eq_true_of_ne_false fun hoff => hstarts (Or.inl ⟨hoff, ?_, hdeck⟩)
        rw [hoff] at hmotor
        exact hmotor
      rw [hrunning] at hmotor
      obtain ⟨b₀, op₀, reply₀, b₁, hb₀, hop, hperform, hcourse⟩ := ih hrunning hdeck
      exact ⟨b₀, op₀, reply₀, b₁, hb₀, hop, hperform,
        hcourse.perform ⟨hmotor, hloads, heject⟩ h⟩

theorem Reachable.rested {b : Board ρ} (hb : b.Reachable) : b.acia.chip.Rested := by
  induction hb with
  | start h =>
    obtain ⟨-, -, hacia⟩ := ofConfig_eq h
    rw [hacia]
    intro p hp
    simp [Acia.Chip.deckPolls, Acia.Chip.trace] at hp
  | perform hb h ih =>
    rcases perform_cases h with ⟨cycles, e, -, hpoll, -⟩ | hop
    · obtain ⟨timers, chip, hadv, -, ha⟩ := Acia.Sound.poll_ok hpoll
      have hrested := Acia.rested_advance hb.sound.timed ih hadv
      rw [ha]
      exact hrested
    · unfold Acia.Chip.Rested
      rw [deckPolls_of_steps h hop]
      exact ih
  | shelve _ _ ih => exact ih

/-- With the motor off, or an empty deck, no operation polls a tape. -/
theorem deckPolls_of_idle {b b' : Board ρ} (hb : b.Reachable)
    (hidle : b.acia.chip.motorOn = false ∨ b.acia.chip.deck = none) {op : Operation ρ}
    {reply : Reply} (h : b.perform op = .ok (reply, b')) :
    b'.acia.chip.deckPolls = b.acia.chip.deckPolls := by
  rcases perform_cases h with ⟨cycles, e, -, hpoll, -⟩ | hop
  · obtain ⟨timers, chip, hadv, -, ha⟩ := Acia.Sound.poll_ok hpoll
    have hpolls := Acia.deckPolls_advance hb.sound.timed hidle hadv
    rw [ha]
    exact hpolls
  · exact deckPolls_of_steps h hop

/-- **The polls of a tape are exact, and there are no others.**

From the operation with which a tape starts to play, as long as it is let play on and below the end
of time, whatever else happens and however time is cut: the first poll is one cycle after that
operation, each of the others is as long after the one before as that one said, and none that was
due is missing.  A poll that fails empties the deck and is the last.  With the motor on and a tape
in the deck, the tape has started in this way; with the motor off or an empty deck nothing is
polled.  Between a poll without a delay and the poll after it no timer fires, and no operation of
the board ends. -/
theorem Reachable.cadence {b : Board ρ} (hb : b.Reachable) :
    (∀ {op : Operation ρ} {reply : Reply} {b₁ b₂ : Board ρ}, b.Starts op →
      b.perform op = .ok (reply, b₁) → Course Continues b₁ b₂ →
      b₂.acia.now.count < Cycles.last.count →
      ∃ polls next?, b₂.acia.chip.deckPolls = b.acia.chip.deckPolls ++ polls ∧
        Acia.Cadence (some (b.acia.now.count + 1)) polls next? ∧
        (∀ cycle ∈ next?, b₂.acia.now.count < cycle) ∧
        next?.isSome = b₂.acia.chip.deck.isSome) ∧
    (b.acia.chip.motorOn = true → b.acia.chip.deck.isSome = true →
      ∃ (b₀ : Board ρ) (op : Operation ρ) (reply : Reply) (b₁ : Board ρ), b₀.Reachable ∧
        b₀.Starts op ∧ b₀.perform op = .ok (reply, b₁) ∧ Course Continues b₁ b) ∧
    (b.acia.chip.motorOn = false ∨ b.acia.chip.deck = none →
      ∀ {op : Operation ρ} {reply : Reply} {b' : Board ρ}, b.perform op = .ok (reply, b') →
        b'.acia.chip.deckPolls = b.acia.chip.deckPolls) ∧
    b.acia.chip.Rested ∧
    ∀ limit cycles,
      (Scheduler.watchPoll Acia.Timer.routine limit cycles b.acia.timers b.acia.chip).outcome
          = Scheduler.poll Acia.Timer.routine limit cycles b.acia.timers b.acia.chip ∧
        ∀ x ∈ (Scheduler.watchPoll Acia.Timer.routine limit cycles b.acia.timers
          b.acia.chip).seen, x.context.Rested := by
  refine ⟨?_, hb.exists_start, fun hidle {_ _ _} h => deckPolls_of_idle hb hidle h, hb.rested, ?_⟩
  · intro op reply b₁ b₂ hop hperform hcourse hlast
    have hb₂ := hcourse.reachable (hb.perform hperform)
    obtain ⟨hmotor, polls, next?, hpolls, hcadence, hdue⟩ := hop.inTime hb hperform hcourse hlast
    refine ⟨polls, next?, hpolls, hcadence, ?_, ?_⟩
    · rintro cycle rfl
      obtain ⟨e, he, hcycle⟩ := Acia.Timer.exists_entry hdue
      have hlater : b₂.acia.now.count < e.due.count := hb₂.later hlast e he
      rw [hcycle, Cycles.count_ofNat] at hlater
      omega
    · have hwired := hb₂.wired.tape
      rw [hdue, Option.isSome_map, show b₂.acia.chip.standing.motorOn = true from hmotor] at hwired
      exact hwired
  · intro limit cycles
    exact ⟨Scheduler.outcome_watch Acia.Timer.neverPoll_routine limit _ _ _,
      Acia.rested_watch hb.sound.timed hb.rested limit _⟩

/-- A board with a tape in the deck that loses its carrier between two bytes. -/
def spooled : Board Unit :=
  ({ plain with shelf := some (.tapefile (.ofImage [0x41, 0xFF, 0x00, 0x42] .standard)) } :
    Board Unit).after [.reinsert]

/-- A program that sends a byte and turns to RS423, on a host that lets time pass in three steps. -/
def distracted : List (Operation Unit) :=
  [.write 1 0x55, .poll 600, .selectRs423 true, .poll 1, .switchMotor true, .reset, .poll 899]

/-- It does not disturb the tape, which is polled after 1, 1042 and again 1042 cycles. -/
theorem cadence_spooled :
    ∃ (b₁ b₂ : Board Unit) (reply : Reply), spooled.Reachable ∧
      spooled.Starts (.switchMotor true) ∧
      spooled.perform (.switchMotor true) = .ok (reply, b₁) ∧ Course Continues b₁ b₂ ∧
      b₂.acia.now.count < Cycles.last.count ∧
      b₂.acia.chip.deckPolls.map (fun p => (p.cycle, p.delay.toOption))
        = [(1, some 1041), (1042, some 0), (1042, some 1041)] ∧
      ∃ polls next?, b₂.acia.chip.deckPolls = spooled.acia.chip.deckPolls ++ polls ∧
        Acia.Cadence (some (spooled.acia.now.count + 1)) polls next? ∧
        (∀ cycle ∈ next?, b₂.acia.now.count < cycle) ∧
        next?.isSome = b₂.acia.chip.deck.isSome := by
  have hspooled : spooled.Reachable := (reachable_plain.shelve _).after _
  have hstarts : spooled.Starts (.switchMotor true) :=
    Or.inl ⟨by decide +kernel, rfl, by decide +kernel⟩
  obtain ⟨reply, hperform⟩ := perform_after spooled (.switchMotor true) (by decide +kernel)
  obtain ⟨replies, hrun⟩ :=
    run_after (spooled.after [.switchMotor true]) distracted (by decide +kernel)
  have hcourse : Course Continues (spooled.after [.switchMotor true])
      ((spooled.after [.switchMotor true]).after distracted) := by
    refine Course.refl.run (fun op hop b => ?_) hrun
    simp only [distracted, List.mem_cons, List.not_mem_nil, or_false] at hop
    rcases hop with rfl | rfl | rfl | rfl | rfl | rfl | rfl <;> exact ⟨rfl, rfl, by simp⟩
  have hlast : ((spooled.after [.switchMotor true]).after distracted).acia.now.count
      < Cycles.last.count := by
    decide +kernel
  exact ⟨_, _, reply, hspooled, hstarts, hperform, hcourse, hlast, by decide +kernel,
    hspooled.cadence.1 hstarts hperform hcourse hlast⟩

end Board

end Cassette
