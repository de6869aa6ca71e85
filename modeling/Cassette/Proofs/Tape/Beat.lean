import Cassette.Tape.Run

/-!
# Beats

What a poll of a tape does to the machine: the calls among its signals, in order, and the
time until the next poll.  What a tape plays from some position on is the calls of its polls
up to its end or its first error.  Which machine it plays for shows in the delays and in the
notices, but not in the calls.

## Main definitions

* `Signal.isCall`, `Signal.byte?` — a signal that reaches the machine, and the byte in it.
* `Beat`, `Played.beat` — what one poll does and asks for.
* `playThrough` — what a tape plays from its position on; `pollCalls`, what a loop plays.
* `afterRun` — the tape after a run, unless it has failed.

## Main results

* `playThrough_poll` — one poll plays the first of what there is to play.
* `pollCalls_eq_playThrough` — a loop of polls plays it all.
* `playThrough_run` — so does a run.
* `playThrough_control` — **what a tape plays does not depend on the control register**.
-/

namespace Cassette.Tape

/-- The signal reaches the machine; a notice is only told. -/
def Signal.isCall : Signal → Bool
  | .note _ => false
  | _ => true

@[simp] theorem Signal.isCall_byte (b : UInt8) : (Signal.byte b).isCall = true := rfl

@[simp] theorem Signal.isCall_carrier (level : Bool) : (Signal.carrier level).isCall = true := rfl

@[simp] theorem Signal.isCall_tone (hertz : Binary32) : (Signal.tone hertz).isCall = true := rfl

@[simp] theorem Signal.isCall_note (notice : Notice) : (Signal.note notice).isCall = false := rfl

/-- The byte that a signal delivers. -/
def Signal.byte? : Signal → Option UInt8
  | .byte b => some b
  | _ => none

/-- What one poll does to the machine, in order, and the time until the next one. -/
structure Beat where
  calls : List Signal
  delay : Except Error Cycles

/-- The beat of a poll. -/
def Played.beat {τ : Type} (p : Played τ) : Beat := ⟨p.signals.filter Signal.isCall, p.delay⟩

/-! ### Playing through -/

/-- The calls of a tape that is polled again and again, up to its end or its first error. -/
def playThrough (control : UInt8) (t : Tape) : List Signal :=
  if hf : t.isFinished = true then []
  else
    let p := t.poll control
    match h : p.delay with
    | .error _ => p.beat.calls
    | .ok _ =>
      have := work_poll_lt (eq_false_of_ne_true hf) h
      p.beat.calls ++ playThrough control p.tape
termination_by t.work

/-- The tape after a unit of work, unless it has failed. -/
def Played.next? {τ : Type} (p : Played τ) : Option τ := p.delay.toOption.map fun _ => p.tape

theorem calls_of_isFinished (control : UInt8) {t : Tape} (h : t.isFinished = true) :
    (t.poll control).beat.calls = [] ∧ (t.poll control).next? = some t := by
  cases t with
  | tapefile t =>
    have h : t.cursor.atEnd = true := h
    simp only [poll, Tapefile.poll, h]
    exact ⟨rfl, rfl⟩
  | uef t =>
    obtain ⟨hp, he⟩ : t.playing.isNone = true ∧ t.cursor.atEnd = true := by
      simpa [isFinished, Uef.isFinished] using h
    simp only [poll, Uef.poll, Option.isNone_iff_eq_none.mp hp, he]
    exact ⟨rfl, rfl⟩

/-- One poll plays the first of what there is to play. -/
theorem playThrough_poll (control : UInt8) (t : Tape) :
    t.playThrough control
      = (t.poll control).beat.calls ++ (t.poll control).next?.elim [] (playThrough control) := by
  by_cases hf : t.isFinished = true
  · obtain ⟨hcalls, hnext⟩ := calls_of_isFinished control hf
    rw [hcalls, hnext]
    rfl
  · rw [playThrough, dif_neg hf]
    unfold Played.next?
    dsimp only
    split
    · next e h => simp [h, Except.toOption]
    · next d h => simp [h, Except.toOption]

theorem work_next?_lt {t t' : Tape} {control : UInt8} (hf : ¬ t.isFinished = true)
    (h : (t.poll control).next? = some t') : t'.work < t.work := by
  unfold Played.next? at h
  cases hd : (t.poll control).delay with
  | error e => simp [hd, Except.toOption] at h
  | ok d =>
    simp only [hd, Except.toOption, Option.map_some, Option.some.injEq] at h
    rw [← h]
    exact work_poll_lt (eq_false_of_ne_true hf) hd

/-- The calls of `n` polls in a row, up to the first error. -/
def pollCalls (control : UInt8) : Nat → Tape → List Signal
  | 0, _ => []
  | n + 1, t =>
    (t.poll control).beat.calls ++ (t.poll control).next?.elim [] (pollCalls control n)

/-- However long a tape is polled in a loop, it plays what there is to play, and no more. -/
theorem pollCalls_eq_playThrough (control : UInt8) {t : Tape} {n : Nat} (h : t.work < n) :
    t.pollCalls control n = t.playThrough control := by
  induction n generalizing t with
  | zero => simp at h
  | succ n ih =>
    by_cases hf : t.isFinished = true
    · have hidle : ∀ n, t.pollCalls control n = [] := by
        intro n
        induction n with
        | zero => rfl
        | succ n ih =>
          obtain ⟨hcalls, hnext⟩ := calls_of_isFinished control hf
          rw [pollCalls, hcalls, hnext]
          exact ih
      rw [hidle, playThrough, dif_pos hf]
    · rw [pollCalls, playThrough_poll]
      cases hnext : (t.poll control).next? with
      | none => rfl
      | some t' =>
        have hlt := work_next?_lt hf hnext
        exact congrArg _ (ih (by omega))

/-! ### Runs -/

/-- A run is its last unit, or a unit that takes no time and the run after it. -/
@[elab_as_elim]
theorem run_induct (control : UInt8) {motive : Tape → List (Played Tape) → Prop}
    (last : ∀ t, (t.poll control).delay ≠ .ok 0 → motive t [t.poll control])
    (more : ∀ t, (t.poll control).delay = .ok 0 →
      motive (t.poll control).tape ((t.poll control).tape.run control) →
      motive t (t.poll control :: (t.poll control).tape.run control)) (t : Tape) :
    motive t (t.run control) := by
  induction t using run.induct_unfolding control with
  | case1 t p e h => exact last t (by rw [h]; simp)
  | case2 t p h hlt ih => exact more t h ih
  | case3 t p d h hd => exact last t (by rw [h]; simpa using hd)

/-- A run ends with a unit that takes time or fails. -/
theorem getLast?_run (control : UInt8) (t : Tape) :
    ∃ p, (t.run control).getLast? = some p ∧ p.delay ≠ .ok 0 := by
  induction t using run_induct control with
  | last t h => exact ⟨t.poll control, rfl, h⟩
  | more t h ih =>
    obtain ⟨q, hq, hdelay⟩ := ih
    refine ⟨q, ?_, hdelay⟩
    rw [List.getLast?_cons, hq]
    rfl

theorem run_ne_nil (control : UInt8) (t : Tape) : t.run control ≠ [] := by
  obtain ⟨p, hp, -⟩ := t.getLast?_run control
  intro h
  rw [h] at hp
  simp at hp

/-- The calls of a list of units. -/
def callsOf (units : List (Played Tape)) : List Signal := units.flatMap (·.beat.calls)

/-- The tape after a run, unless it has failed. -/
def afterRun (control : UInt8) (t : Tape) : Option Tape :=
  (t.run control).getLast?.bind Played.next?

/-- A run plays the first of what there is to play. -/
theorem playThrough_run (control : UInt8) (t : Tape) :
    t.playThrough control
      = callsOf (t.run control) ++ (t.afterRun control).elim [] (playThrough control) := by
  unfold afterRun
  induction t using run_induct control with
  | last t h =>
    rw [playThrough_poll]
    simp [callsOf]
  | more t h ih =>
    have hnext : (t.poll control).next? = some (t.poll control).tape := by
      simp [Played.next?, h, Except.toOption]
    obtain ⟨q, hq, -⟩ := (t.poll control).tape.getLast?_run control
    rw [playThrough_poll, hnext, List.getLast?_cons, hq]
    rw [hq] at ih
    change (t.poll control).beat.calls ++ (t.poll control).tape.playThrough control = _
    rw [ih]
    simp [callsOf]

/-! ### The control register -/

theorem Tapefile.beat_control (t : Tapefile) (control other : UInt8) :
    (t.poll control).beat.calls = (t.poll other).beat.calls ∧
      (t.poll control).next? = (t.poll other).next? := by
  unfold Tapefile.poll
  split
  · exact ⟨rfl, rfl⟩
  · split
    · next item cursor hread =>
      refine ⟨?_, rfl⟩
      cases item with
      | byte b =>
        have hcalls : ∀ control, (Item.signals control (.byte b)).filter Signal.isCall
            = [.byte b] := by
          intro control
          rw [Item.signals]
          by_cases hdivider : (divider? control).isNone = true
          · rw [if_pos hdivider]
            rfl
          · rw [if_neg hdivider]
            rfl
        exact (hcalls control).trans (hcalls other).symm
      | carrierLost | carrierPresent => rfl
    · exact ⟨rfl, rfl⟩

theorem Played.next?_map {τ υ : Type} (f : τ → υ) (p : Played τ) :
    (p.map f).next? = p.next?.map f := by
  unfold next? map
  cases p.delay <;> rfl

theorem poll_control (t : Tape) (control other : UInt8) :
    (t.poll control).beat.calls = (t.poll other).beat.calls ∧
      (t.poll control).next? = (t.poll other).next? := by
  cases t with
  | tapefile t =>
    obtain ⟨hcalls, hnext⟩ := t.beat_control control other
    refine ⟨hcalls, ?_⟩
    change ((t.poll control).map tapefile).next? = ((t.poll other).map tapefile).next?
    rw [Played.next?_map, Played.next?_map, hnext]
  | uef t => exact ⟨rfl, rfl⟩

/-- **What a tape plays does not depend on the control register.** -/
theorem playThrough_control (t : Tape) (control other : UInt8) :
    t.playThrough control = t.playThrough other := by
  by_cases hf : t.isFinished = true
  · rw [playThrough, playThrough, dif_pos hf, dif_pos hf]
  · obtain ⟨hcalls, hnext⟩ := t.poll_control control other
    rw [playThrough_poll control, playThrough_poll other, hcalls, hnext]
    cases h : (t.poll other).next? with
    | none => rfl
    | some t' =>
      have := work_next?_lt hf h
      exact congrArg _ (playThrough_control t' control other)
termination_by t.work

end Cassette.Tape
