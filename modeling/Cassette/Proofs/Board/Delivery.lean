import Cassette.Proofs.Board.Reachable

/-!
# What a tape delivers

A tape may be stopped and started again, taken out and put back, and polled in steps of any
size.  What it has played and what it has left to play are together always the same: the timer
of the tape plays the first of what is left, and nothing else plays anything.  So the tape
delivers the beginning of what it plays when it is polled directly, in order and without a gap.

## Main definitions

* `Acia.Chip.left`, `Board.left` — what the tape has left to play.
* `Acia.PlaysOn`, `Board.PlaysOn` — what has been played has come from what was left.
* `Board.KeepsTape` — an operation that neither rewinds the tape nor puts in another.

## Main results

* `Acia.playsOn_act` — a timer plays on.
* `Board.playsOn_perform`, `Board.playsOn_run` — so does every operation, and every history.
* `Board.calls_prefix` — **a tape delivers the beginning of what it plays**.
-/

namespace Cassette

namespace Acia

variable {ρ : Type}

/-! ### The deck -/

/-- What the tape in the deck has left to play. -/
def Chip.left (c : Chip ρ) : List Tape.Signal := c.deck.elim [] (Tape.playThrough 0)

/-- What has been played between `c` and `c'` has come from what was left, and an empty deck has
stayed empty. -/
structure PlaysOn (c c' : Chip ρ) : Prop where
  played : ∃ more, c'.calls = c.calls ++ more ∧ c.left = more ++ c'.left
  empty : c.deck = none → c'.deck = none

theorem PlaysOn.refl (c : Chip ρ) : PlaysOn c c := ⟨⟨[], (List.append_nil _).symm, rfl⟩, id⟩

theorem PlaysOn.trans {c c' c'' : Chip ρ} (h : PlaysOn c c') (h' : PlaysOn c' c'') :
    PlaysOn c c'' := by
  obtain ⟨⟨more, hcalls, hleft⟩, hempty⟩ := h
  obtain ⟨⟨more', hcalls', hleft'⟩, hempty'⟩ := h'
  refine ⟨⟨more ++ more', ?_, ?_⟩, fun hnone => hempty' (hempty hnone)⟩
  · rw [hcalls', hcalls, List.append_assoc]
  · rw [hleft, hleft', List.append_assoc]

theorem SameDeck.playsOn {c c' : Chip ρ} (h : SameDeck c c') : PlaysOn c c' := by
  refine ⟨⟨[], ?_, ?_⟩, fun hnone => h.deck.trans hnone⟩
  · rw [h.calls, List.append_nil]
  · unfold Chip.left
    rw [h.deck]
    rfl

/-- A turn of the deck plays the first of what is left. -/
theorem playsOn_pollTape (now : Cycles) (c : Chip ρ) : PlaysOn c (c.pollTape now).2 := by
  by_cases hmotor : c.motorOn = true
  · cases hdeck : c.deck with
    | none =>
      rw [pollTape_of_idle now (Or.inr hdeck)]
      exact .refl c
    | some tape =>
      refine ⟨⟨_, calls_pollTape now hmotor hdeck, ?_⟩, fun hnone => ?_⟩
      · unfold Chip.left
        rw [deck_pollTape now hmotor hdeck, hdeck]
        -- the run is played for the control register of the chip, which does not matter
        change tape.playThrough 0 = _
        rw [tape.playThrough_control 0 c.control, tape.playThrough_run c.control]
        cases tape.afterRun c.control with
        | none => rfl
        | some rest =>
          rw [Option.elim_some, Option.elim_some, rest.playThrough_control 0 c.control]
      · rw [hdeck] at hnone
        simp at hnone
  · rw [pollTape_of_idle now (Or.inl (eq_false_of_ne_true hmotor))]
    exact .refl c

variable [SerialPeer ρ]

/-- A timer plays on. -/
theorem playsOn_act (timer : Timer) (now : Cycles) (c : Chip ρ) :
    PlaysOn c (timer.act now c).2 := by
  cases timer with
  | transmit => exact SameDeck.playsOn ⟨rfl, rfl, rfl, rfl⟩
  | tape => exact playsOn_pollTape now c
  | rs423 =>
    rw [Timer.act_rs423]
    by_cases hsel : c.rs423Selected = true
    · rw [if_pos hsel]
      exact (sameDeck_pollPeer now c).playsOn
    · rw [if_neg hsel]
      exact .refl c

/-- So does an advance. -/
theorem playsOn_advance {s s' : Scheduler Timer} {c c' : Chip ρ} (h : Timed s c) {limit : Nat}
    {target : Cycles} (hadv : Scheduler.advance Timer.routine limit target s c = .ok (s', c')) :
    PlaysOn c c' := by
  obtain ⟨-, hplays, -⟩ := h.induct (fun _ c' => PlaysOn c c')
    (fun {_ c₁ e _ timer} _ hplays _ _ _ => hplays.trans (playsOn_act timer e.due c₁))
    (.refl c) hadv
  exact hplays

theorem playsOn_poll {a a' : Acia ρ} (h : a.Sound) {cycles : Cycles} {e : Option Tape.Error}
    (hpoll : a.poll cycles = .ok (e, a')) : PlaysOn a.chip a'.chip := by
  obtain ⟨timers, chip, hadv, -, rfl⟩ := Sound.poll_ok hpoll
  exact (playsOn_advance h.timed hadv).trans ⟨⟨[], (List.append_nil _).symm, rfl⟩, id⟩

end Acia

namespace Board

variable {ρ : Type}

/-! ### The board -/

/-- The calls of the tapes that have been in the deck. -/
def calls (b : Board ρ) : List Tape.Signal := b.acia.chip.calls

/-- What the tape in the deck or on the shelf has left to play. -/
def left (b : Board ρ) : List Tape.Signal :=
  (b.acia.chip.deck.or b.shelf).elim [] (Tape.playThrough 0)

/-- There is no tape on the shelf while there is one in the deck. -/
def OneTape (b : Board ρ) : Prop := b.acia.chip.deck = none ∨ b.shelf = none

/-- What has been played between `b` and `b'` has come from what was left of the one tape. -/
structure PlaysOn (b b' : Board ρ) : Prop where
  played : ∃ more, b'.calls = b.calls ++ more ∧ b.left = more ++ b'.left
  one : b'.OneTape

/-- The operation neither rewinds the tape nor puts in another. -/
def KeepsTape : Operation ρ → Prop
  | .insert .. | .rewind => False
  | _ => True

/-- Handling the one tape leaves it one. -/
theorem handled_of_keepsTape {b : Board ρ} (h : b.OneTape) {op : Operation ρ}
    (hop : KeepsTape op) :
    (b.handled op).1.or (b.handled op).2 = b.acia.chip.deck.or b.shelf ∧
      ((b.handled op).1 = none ∨ (b.handled op).2 = none) := by
  cases op with
  | insert | rewind => exact absurd hop id
  | eject => exact ⟨rfl, Or.inl rfl⟩
  | reinsert =>
    unfold handled
    cases hshelf : b.shelf with
    | none => exact ⟨by simp, Or.inr rfl⟩
    | some tape =>
      have hdeck : b.acia.chip.deck = none := by
        rcases h with h | h
        · exact h
        · rw [hshelf] at h
          simp at h
      simp [hdeck]
  | _ => exact ⟨rfl, h⟩

variable [Acia.SerialPeer ρ]

theorem playsOn_poll {b : Board ρ} (hsound : b.acia.Sound) (h : b.OneTape) {cycles : Cycles}
    {e : Option Tape.Error} {a : Acia ρ} (hpoll : b.acia.poll cycles = .ok (e, a)) :
    PlaysOn b (b.withAcia a) := by
  obtain ⟨⟨more, hcalls, hleft⟩, hempty⟩ := Acia.playsOn_poll hsound hpoll
  -- what the poll plays is the deck's: the shelf is empty, or the deck is and stays so
  rcases h with hdeck | hshelf
  · have hdeck' : a.chip.deck = none := hempty hdeck
    -- an empty deck has nothing left, so nothing has been played
    have hmore : more = [] := by
      unfold Acia.Chip.left at hleft
      rw [hdeck, hdeck'] at hleft
      simpa using hleft.symm
    refine ⟨⟨[], ?_, ?_⟩, Or.inl hdeck'⟩
    · change a.chip.calls = b.acia.chip.calls ++ []
      rw [hcalls, hmore]
    · change (b.acia.chip.deck.or b.shelf).elim [] _ = (a.chip.deck.or b.shelf).elim [] _
      rw [hdeck, hdeck']
  · refine ⟨⟨more, hcalls, ?_⟩, Or.inr hshelf⟩
    change (b.acia.chip.deck.or b.shelf).elim [] _ = more ++ (a.chip.deck.or b.shelf).elim [] _
    rw [hshelf, Option.or_none, Option.or_none]
    exact hleft

/-- Every operation that keeps the tape plays on. -/
theorem playsOn_perform {b b' : Board ρ} (hsound : b.acia.Sound) (h : b.OneTape)
    {op : Operation ρ} (hop : KeepsTape op) {reply : Reply}
    (hperform : b.perform op = .ok (reply, b')) : PlaysOn b b' := by
  rcases perform_cases hperform with ⟨cycles, e, -, hpoll, hb'⟩ | hcycles
  · rw [hb']
    exact playsOn_poll hsound h hpoll
  · obtain ⟨hsteps, hshelf⟩ := perform_steps hperform hcycles
    obtain ⟨hsame, hone⟩ := handled_of_keepsTape h hop
    have hdeck : b'.acia.chip.deck = (b.handled op).1 := hsteps.sameDeck.deck
    refine ⟨⟨[], ?_, ?_⟩, ?_⟩
    · rw [List.append_nil]
      exact hsteps.sameDeck.calls
    · unfold left
      rw [hdeck, hshelf, hsame]
      rfl
    · unfold OneTape
      rw [hdeck, hshelf]
      exact hone

theorem playsOn_run {b b' : Board ρ} (hb : b.Reachable) (h : b.OneTape) {ops : List (Operation ρ)}
    (hops : ∀ op ∈ ops, KeepsTape op) {replies : List Reply}
    (hrun : b.run ops = .ok (replies, b')) : PlaysOn b b' := by
  induction ops generalizing b replies with
  | nil =>
    obtain ⟨-, rfl⟩ := Prod.mk.inj (Except.ok.inj hrun)
    exact ⟨⟨[], (List.append_nil _).symm, rfl⟩, h⟩
  | cons op ops ih =>
    obtain ⟨reply, rest, b₁, hperform, hrest, -⟩ := run_cons_iff.mp hrun
    obtain ⟨⟨more, hcalls, hleft⟩, hone⟩ :=
      playsOn_perform hb.sound h (hops op List.mem_cons_self) hperform
    obtain ⟨⟨more', hcalls', hleft'⟩, hone'⟩ := ih (hb.perform hperform) hone
      (fun op hop => hops op (List.mem_cons_of_mem _ hop)) hrest
    refine ⟨⟨more ++ more', ?_, ?_⟩, hone'⟩
    · rw [hcalls', hcalls, List.append_assoc]
    · rw [hleft, hleft', List.append_assoc]

/-- **A tape delivers the beginning of what it plays.**  After an image has been opened and put
into the deck, and whatever was there put aside, a history that neither rewinds the tape nor
puts in another makes the calls of the tape in their order, without a gap, from the first one
on; and so it delivers the bytes.  The control register under which the tape is polled directly
does not matter. -/
theorem calls_prefix {b b₁ b' : Board ρ} (hb : b.Reachable) {data : List UInt8} {clock : Clock}
    {told : List Tape.Notice} {tape : Tape} (hload : Tape.load data clock = (told, .ok tape))
    {reply : Reply} (hinsert : b.perform (.insert data clock) = .ok (reply, b₁))
    {ops : List (Operation ρ)} (hops : ∀ op ∈ ops, KeepsTape op) {replies : List Reply}
    (hrun : ({ b₁ with shelf := none } : Board ρ).run ops = .ok (replies, b')) :
    ∃ played, b'.calls = b.calls ++ played ∧
      ∀ control, played <+: tape.playThrough control ∧
        played.filterMap Tape.Signal.byte? <+:
          (tape.playThrough control).filterMap Tape.Signal.byte? := by
  obtain ⟨hsteps, -⟩ := perform_steps hinsert fun _ => by simp
  have hhandled : (b.handled (.insert data clock)).1 = some tape := by
    simp only [handled, hload]
  rw [hhandled] at hsteps
  have hdeck : b₁.acia.chip.deck = some tape := hsteps.sameDeck.deck
  have hcalls₁ : b₁.calls = b.calls := hsteps.sameDeck.calls
  obtain ⟨⟨played, hcalls, hleft⟩, -⟩ :=
    playsOn_run ((hb.perform hinsert).shelve none) (Or.inr rfl) hops hrun
  refine ⟨played, ?_, fun control => ?_⟩
  · rw [← hcalls₁]
    exact hcalls
  · have hwhole : tape.playThrough control = played ++ b'.left := by
      rw [tape.playThrough_control control 0, ← hleft]
      change _ = (b₁.acia.chip.deck.or none).elim [] (Tape.playThrough 0)
      rw [hdeck]
      rfl
    have hbegin : played <+: tape.playThrough control := ⟨b'.left, hwhole.symm⟩
    exact ⟨hbegin, hbegin.filterMap _⟩

/-- A tape that is taken out and put back while the motor runs, and then plays. -/
theorem calls_prefix_reinserted :
    ∃ (b₁ b' : Board Unit) (tape : Tape) (told : List Tape.Notice) (reply : Reply)
        (replies : List Reply),
      plain.Reachable ∧
      Tape.load [0xFF, 0x04, 0x41, 0x42] .standard = (told, .ok tape) ∧
      plain.perform (.insert [0xFF, 0x04, 0x41, 0x42] .standard) = .ok (reply, b₁) ∧
      ({ b₁ with shelf := none } : Board Unit).run
        [.switchMotor true, .eject, .reinsert, .poll 3000] = .ok (replies, b') ∧
      ∃ played, b'.calls = plain.calls ++ played ∧
        ∀ control, played <+: tape.playThrough control ∧
          played.filterMap Tape.Signal.byte? <+:
            (tape.playThrough control).filterMap Tape.Signal.byte? := by
  have hload : Tape.load [0xFF, 0x04, 0x41, 0x42] .standard = (_, .ok _) := rfl
  have hinsert : plain.perform (.insert [0xFF, 0x04, 0x41, 0x42] .standard) = .ok (_, _) := rfl
  have hinserted := (reachable_plain.perform hinsert).shelve none
  obtain ⟨replies, b', hrun⟩ := hinserted.exists_poll
    (show Board.run _ [.switchMotor true, .eject, .reinsert] = .ok (_, _) from rfl)
    (show (0 : Cycles).count + (3000 : Cycles).count < Cycles.last.count by decide)
  have hops : ∀ op ∈ [.switchMotor true, .eject, .reinsert, .poll 3000],
      KeepsTape (op : Operation Unit) := by
    intro op hop
    simp only [List.mem_cons, List.not_mem_nil, or_false] at hop
    rcases hop with rfl | rfl | rfl | rfl <;> trivial
  exact ⟨_, b', _, _, _, replies, reachable_plain, hload, hinsert, hrun,
    calls_prefix reachable_plain hload hinsert hops hrun⟩

end Board

end Cassette
