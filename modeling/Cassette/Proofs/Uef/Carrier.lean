import Cassette.Proofs.Uef.Playback

/-!
# The carrier of a UEF tape

The level that a tape gives to the carrier line stays until the tape gives another, so what
the line shows after a poll depends on all the polls before it.  A unit of work that a tape
plays settles it: the line is high after a carrier tone and low after anything else.  A poll of
a tape that is over plays nothing and gives no level, and so the line stays for ever at the
level of the last unit, high if the image ends with a carrier tone.

## Main definitions

* `carrierAfter` — the level of the line after some signals.
* `Uef.playsCarrier` — the next unit of work is a carrier tone.
* `Uef.afterPolls`, `Uef.carrierLevel` — a tape, and the line, after so many polls.

## Main results

* `carrierAfter_resume`, `carrierAfter_begin` — a unit of work settles the line.
* `carrierLevel_iff` — **the line is high while a carrier tone plays, and as it was at the end**.
* `carrier_outlasts_tone` — the end of a tape may leave the line high.
-/

namespace Cassette.Tape

/-- The level of a line that stood at `level`, after some signals. -/
def carrierAfter (level : Bool) : List Signal → Bool
  | [] => level
  | .carrier level :: signals => carrierAfter level signals
  | _ :: signals => carrierAfter level signals

section

variable (level : Bool)

@[simp] theorem carrierAfter_carrier (given : Bool) (signals : List Signal) :
    carrierAfter level (.carrier given :: signals) = carrierAfter given signals := rfl

@[simp] theorem carrierAfter_byte (b : UInt8) (signals : List Signal) :
    carrierAfter level (.byte b :: signals) = carrierAfter level signals := rfl

@[simp] theorem carrierAfter_tone (hertz : Binary32) (signals : List Signal) :
    carrierAfter level (.tone hertz :: signals) = carrierAfter level signals := rfl

@[simp] theorem carrierAfter_note (notice : Notice) (signals : List Signal) :
    carrierAfter level (.note notice :: signals) = carrierAfter level signals := rfl

theorem carrierAfter_append (signals more : List Signal) :
    carrierAfter level (signals ++ more) = carrierAfter (carrierAfter level signals) more := by
  induction signals generalizing level with
  | nil => rfl
  | cons s signals ih => cases s <;> exact ih _

/-- Notices do not reach the line. -/
theorem carrierAfter_filter (signals : List Signal) :
    carrierAfter level (signals.filter Signal.isCall) = carrierAfter level signals := by
  induction signals generalizing level with
  | nil => rfl
  | cons s signals ih => cases s <;> simp [List.filter_cons, ih]

theorem carrierAfter_of_notes {signals : List Signal} (h : signals.filter Signal.isCall = []) :
    carrierAfter level signals = level := by
  rw [← carrierAfter_filter, h]
  rfl

end

namespace Uef

/-! ### What the next unit of work is -/

/-- Of a chunk in hand, the carrier tone after the dummy byte comes next. -/
def Playing.atLeadOut : Playing → Bool
  | .dummyFrame [] _ => true
  | _ => false

/-- A chunk begins with a carrier tone. -/
def Chunk.opensWithCarrier (c : Chunk) : Bool := c.kind = .carrier || c.kind = .carrierWithDummy

/-- The next unit of work is a carrier tone: that of a carrier chunk, or the one before or after
a dummy byte. -/
def playsCarrier (t : Uef) : Bool :=
  match t.playing with
  | some playing => playing.atLeadOut
  | none => (Chunk.read t.cursor).1.toOption.any Chunk.opensWithCarrier

/-! ### A unit of work -/

section

variable (level : Bool) (t : Tuning)

theorem carrierAfter_standardCell (byte : UInt8) (cells : List Bool) (rest : List UInt8) :
    carrierAfter level (Stretch.standardCell t byte cells rest).signals = false := by
  unfold Stretch.standardCell
  split <;> rfl

theorem carrierAfter_frameStart (framing : Framing) {noted : List Signal}
    (hnoted : noted.filter Signal.isCall = []) (rest : List UInt8) :
    carrierAfter level (Stretch.frameStart t framing noted rest).signals = false := by
  cases rest with
  | nil => exact carrierAfter_of_notes false hnoted
  | cons byte rest =>
    change carrierAfter false (noted ++ [t.cell false]) = false
    rw [carrierAfter_append, carrierAfter_of_notes false hnoted]
    rfl

/-- A unit of a chunk in hand settles the line. -/
theorem carrierAfter_resume (p : Playing) :
    carrierAfter level (Stretch.resume t p).signals = p.atLeadOut := by
  cases p with
  | standardFrame byte cells rest => exact carrierAfter_standardCell level t byte cells rest
  | nextFrame framing rest => exact carrierAfter_frameStart level t framing rfl rest
  | definedFrame framing byte cells rest => cases cells <;> rfl
  | dummyFrame cells after =>
    cases cells with
    | nil => rfl
    | cons cell cells => cases cells <;> rfl

theorem carrierAfter_definedData {payload : List UInt8} {delay : Cycles}
    (h : (Stretch.definedData t payload).delay = .ok delay) :
    carrierAfter level (Stretch.definedData t payload).signals = false := by
  unfold Stretch.definedData at h ⊢
  dsimp only at h ⊢
  split at h
  · simp [Stretch.failed] at h
  · refine carrierAfter_frameStart level t _ ?_ _
    rw [List.filter_append, filter_framingWarnings]
    rfl

/-- The first unit of a chunk settles the line, unless the payload is too short for it. -/
theorem carrierAfter_begin {c : Chunk} {delay : Cycles}
    (h : (Stretch.begin t c).delay = .ok delay) :
    carrierAfter level (Stretch.begin t c).signals = c.opensWithCarrier := by
  unfold Chunk.opensWithCarrier
  unfold Stretch.begin at h ⊢
  split at h
  case h_2 hk =>
    rw [hk]
    cases c.payload with
    | nil => rfl
    | cons byte rest => exact carrierAfter_standardCell level t byte _ rest
  case h_3 hk =>
    rw [hk]
    exact carrierAfter_definedData level t h
  -- the other kinds are a single read, if any, and a fixed list of signals
  all_goals
    next hk =>
    rw [hk]
    simp only [Stretch.telling, Stretch.carrier, Stretch.dummyLeadIn, Stretch.integerGap,
      Stretch.floatGap, Stretch.baseFrequency] at h ⊢
    repeat' split
    all_goals first | rfl | (simp_all [Stretch.failed])

end

/-! ### A poll -/

/-- A tape that is over has no carrier tone to play. -/
theorem playsCarrier_of_isFinished {t : Uef} (h : t.isFinished = true) :
    t.playsCarrier = false := by
  obtain ⟨hplaying, hend⟩ : t.playing.isNone = true ∧ t.cursor.atEnd = true := by
    simpa [isFinished] using h
  have hrest : t.cursor.rest = [] := by simpa [Cursor.atEnd] using hend
  have hread : Chunk.read t.cursor = (.error _, t.cursor) :=
    Reader.bind_eq_of_error (Reader.number_short (n := 2) (by rw [hrest]; decide))
  unfold playsCarrier
  rw [Option.isNone_iff_eq_none.mp hplaying, hread]
  rfl

/-- A poll that succeeds settles the line, unless the tape is over. -/
theorem carrierAfter_poll (level : Bool) {t : Uef} {delay : Cycles} (h : t.poll.delay = .ok delay) :
    carrierAfter level t.poll.signals = if t.isFinished then level else t.playsCarrier := by
  unfold poll at h ⊢
  unfold isFinished playsCarrier
  cases hplaying : t.playing with
  | some p => exact carrierAfter_resume level t.tuning p
  | none =>
    simp only [hplaying] at h
    cases hend : t.cursor.atEnd with
    | true => rfl
    | false =>
      simp only [hend, Bool.false_eq_true, ↓reduceIte] at h
      cases hread : Chunk.read t.cursor with
      | mk result cursor =>
        rw [hread] at h
        cases result with
        | error e => simp at h
        | ok chunk =>
          have hbegin : ∃ delay, (Stretch.begin t.tuning chunk).delay = .ok delay := by
            cases hdelay : (Stretch.begin t.tuning chunk).delay with
            | ok delay => exact ⟨delay, rfl⟩
            | error e => simp [perform, hdelay, Except.map] at h
          obtain ⟨_, hbegin⟩ := hbegin
          exact carrierAfter_begin level t.tuning hbegin

/-! ### Polls in a row -/

/-- The tape after so many polls. -/
def afterPolls : Nat → Uef → Uef
  | 0, t => t
  | n + 1, t => afterPolls n t.poll.tape

/-- The level of the line after so many polls of a tape; before the first it is low. -/
def carrierLevel (n : Nat) (t : Uef) : Bool :=
  carrierAfter false ((t.beats n).flatMap (·.calls))

theorem beats_succ (n : Nat) (t : Uef) :
    t.beats (n + 1) = t.beats n ++ [(t.afterPolls n).poll.beat] := by
  induction n generalizing t with
  | zero => rfl
  | succ n ih => exact congrArg (t.poll.beat :: ·) (ih t.poll.tape)

theorem carrierLevel_succ (n : Nat) (t : Uef) :
    t.carrierLevel (n + 1) = carrierAfter (t.carrierLevel n) (t.afterPolls n).poll.signals := by
  unfold carrierLevel
  rw [beats_succ, List.flatMap_append, carrierAfter_append, List.flatMap_singleton]
  exact carrierAfter_filter ..

/-- **The line is high while a carrier tone plays, and as it was at the end.**  After a poll that
succeeds, the line is high if the unit of work in that poll is a carrier tone; when the tape was
over and the poll had nothing to play, it is high if it was so before; and otherwise it is low. -/
theorem carrierLevel_iff (t : Uef) (n : Nat) {delay : Cycles}
    (h : (t.afterPolls n).poll.delay = .ok delay) :
    t.carrierLevel (n + 1) = true ↔
      (t.afterPolls n).playsCarrier = true ∨
        (t.afterPolls n).isFinished = true ∧ t.carrierLevel n = true := by
  rw [carrierLevel_succ, carrierAfter_poll _ h]
  split
  · next hfinished => simp [playsCarrier_of_isFinished hfinished, hfinished]
  · next hplaying => simp [hplaying]

/-- A carrier with a dummy byte: its last unit, the twelfth, is the carrier tone after the byte. -/
theorem carrierLevel_iff_leadOut :
    let tape := ofImage (encode 10 [⟨0x0111, [2, 0, 3, 0]⟩]) .standard
    (tape.afterPolls 11).poll.delay = .ok (min (tape.tuning.bitTime 3) maxDelay) ∧
      (tape.carrierLevel 12 = true ↔
        (tape.afterPolls 11).playsCarrier = true ∨
          (tape.afterPolls 11).isFinished = true ∧ tape.carrierLevel 11 = true) :=
  ⟨rfl, carrierLevel_iff _ 11 rfl⟩

/-- The line may be high without a carrier tone: an image that ends with one leaves it so while
there is nothing left to play. -/
theorem carrier_outlasts_tone :
    ∃ tape, load (encode 10 [⟨0x0110, [1, 0]⟩]) .standard = .ok (.version 0 10, tape) ∧
      (tape.afterPolls 1).poll.delay = .ok idleDelay ∧
      (tape.afterPolls 1).playsCarrier = false ∧ tape.carrierLevel 2 = true :=
  ⟨_, rfl, rfl, rfl, rfl⟩

end Uef

end Cassette.Tape
