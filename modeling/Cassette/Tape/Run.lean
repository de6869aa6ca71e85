import Cassette.Tape.Basic

/-!
# Running a tape until it takes time

Some units of work take no time, and the next one is then played at once.  Every unit
but those at the end of the tape uses up some of the image or of the chunk in hand, so
a run of such units ends.

## Main definitions

* `Tape.work` — a bound on the units of work that are left.
* `Tape.run` — units up to the first that takes time or fails.

## Main statements

* `work_poll_lt` — a unit before the end of the tape leaves less work.
-/

namespace Cassette.Tape

/-! ### Tapefiles -/

/-- Every item takes bytes. -/
def Tapefile.work (t : Tapefile) : Nat := t.cursor.rest.length

theorem Tapefile.length_of_read {c c' : Cursor} {item : Item} (h : Item.read c = (.ok item, c')) :
    c'.rest.length < c.rest.length := by
  obtain ⟨b, c₁, h1, h2⟩ := Reader.bind_ok h
  have := Reader.byte_ok h1
  split at h2
  · obtain ⟨-, rfl⟩ := Prod.mk.inj h2; omega
  · obtain ⟨e, c₂, h3, h4⟩ := Reader.bind_ok h2
    have := Reader.byte_ok h3
    split at h4
    · obtain ⟨-, rfl⟩ := Prod.mk.inj h4; omega
    split at h4
    · obtain ⟨-, rfl⟩ := Prod.mk.inj h4; omega
    split at h4
    · obtain ⟨-, rfl⟩ := Prod.mk.inj h4; omega
    · simp [Reader.fail] at h4

theorem Tapefile.work_poll_lt {t : Tapefile} {control : UInt8} {d : Cycles}
    (hf : t.isFinished = false) (h : (t.poll control).delay = .ok d) :
    (t.poll control).tape.work < t.work := by
  unfold isFinished at hf
  revert h
  unfold poll
  rw [hf]
  simp only [Bool.false_eq_true, ↓reduceIte]
  split
  · next item cursor hr => intro _; exact length_of_read hr
  · intro h; simp at h

/-! ### UEF tapes -/

/-- A bound on the units of work that are left of a chunk. -/
def Uef.Playing.work : Uef.Playing → Nat
  | .standardFrame _ cells rest => cells.length + 10 * rest.length + 1
  | .nextFrame framing rest => (framing.length + 1) * rest.length + 1
  | .definedFrame framing _ cells rest => cells.length + (framing.length + 1) * rest.length + 2
  | .dummyFrame cells _ => cells.length + 1

/-- The same for what may be left of a chunk. -/
def Uef.leftWork (playing : Option Uef.Playing) : Nat := playing.elim 0 Uef.Playing.work

@[simp] theorem Uef.leftWork_none : Uef.leftWork none = 0 := rfl

@[simp] theorem Uef.leftWork_some (p : Uef.Playing) : Uef.leftWork (some p) = p.work := rfl

theorem Uef.leftWork_standardCell_lt (t : Tuning) (byte : UInt8) (cells : List Bool)
    (rest : List UInt8) :
    leftWork (Stretch.standardCell t byte cells rest).playing
      < cells.length + 10 * rest.length + 1 := by
  unfold Stretch.standardCell
  split
  · simp [Stretch.last]
  · simp [Stretch.last]
  · next cell next rest =>
    have : Framing.standard.length = 10 := rfl
    simp only [Stretch.more, leftWork_some, Playing.work, Framing.length_cells, List.length_cons,
      List.length_nil, this]
    omega
  · simp only [Stretch.more, leftWork_some, Playing.work, List.length_cons]; omega

theorem Uef.leftWork_frameStart_lt (t : Tuning) (framing : Framing) (noted : List Signal)
    (rest : List UInt8) :
    leftWork (Stretch.frameStart t framing noted rest).playing
      < (framing.length + 1) * rest.length + 1 := by
  unfold Stretch.frameStart
  split
  · simp [Stretch.last]
  · next byte rest =>
    simp only [Stretch.more, leftWork_some, Playing.work, List.length_tail, Framing.length_cells,
      List.length_cons, Nat.mul_add]
    have : 0 < framing.length := by unfold Framing.length; omega
    omega

theorem Uef.leftWork_resume_lt (t : Tuning) (p : Playing) :
    leftWork (Stretch.resume t p).playing < p.work := by
  cases p with
  | standardFrame byte cells rest => exact leftWork_standardCell_lt t byte cells rest
  | nextFrame framing rest => exact leftWork_frameStart_lt t framing [] rest
  | definedFrame framing byte cells rest =>
    cases cells <;>
      simp only [Stretch.resume, Stretch.definedCell, Stretch.more, leftWork_some, Playing.work,
        List.length_nil, List.length_cons] <;> omega
  | dummyFrame cells after =>
    cases cells <;>
      simp only [Stretch.resume, Stretch.dummyCell, Stretch.last, Stretch.more, leftWork_some,
        leftWork_none, Playing.work, List.length_nil, List.length_cons] <;> omega

theorem Uef.leftWork_definedData_le (t : Tuning) (payload : List UInt8) :
    leftWork (Stretch.definedData t payload).playing ≤ 300 * (payload.length + 5) := by
  unfold Stretch.definedData
  dsimp only
  split
  · simp [Stretch.failed]
  · next framing used _ _ =>
    refine Nat.le_of_lt (Nat.lt_of_lt_of_le (leftWork_frameStart_lt ..) ?_)
    have h1 := framing.length_le
    have h2 : (framing.length + 1) * (payload.drop used).length ≤ 266 * payload.length :=
      Nat.mul_le_mul (by omega) (by simp)
    omega

theorem Uef.leftWork_begin_le (t : Tuning) (c : Chunk) :
    leftWork (Stretch.begin t c).playing ≤ 300 * (c.payload.length + 5) := by
  unfold Stretch.begin
  split
  case h_2 =>
    unfold Stretch.standardData
    split
    · simp [Stretch.last]
    · next byte rest _ =>
      refine Nat.le_of_lt (Nat.lt_of_lt_of_le (leftWork_standardCell_lt ..) ?_)
      have : Framing.standard.length = 10 := rfl
      simp only [Framing.length_cells, this]
      rename_i hp
      rw [hp, List.length_cons]
      omega
  case h_3 => exact leftWork_definedData_le t c.payload
  case h_5 =>
    unfold Stretch.dummyLeadIn
    split
    · simp [Stretch.failed]
    · have : dummyCells.length = 10 := rfl
      simp only [Stretch.more, leftWork_some, Playing.work, this]
      omega
  all_goals
    simp only [Stretch.telling, Stretch.carrier, Stretch.integerGap, Stretch.baseFrequency,
      Stretch.floatGap, Stretch.last, Stretch.failed]
    repeat' split
    all_goals simp

/-- A bound on the units of work that are left: those of the chunk in hand, and for the
bytes after it more than any chunk makes of them. -/
def Uef.work (t : Uef) : Nat := 300 * t.cursor.rest.length + Uef.leftWork t.playing

theorem Uef.length_of_read {c c' : Cursor} {chunk : Chunk} (h : Chunk.read c = (.ok chunk, c')) :
    c.rest.length = 6 + chunk.payload.length + c'.rest.length := by
  obtain ⟨id, c₁, h1, h2⟩ := Reader.bind_ok h
  obtain ⟨length, c₂, h3, h4⟩ := Reader.bind_ok h2
  obtain ⟨payload, c₃, h5, h6⟩ := Reader.bind_ok h4
  obtain ⟨h7, rfl⟩ := Prod.mk.inj h6
  obtain rfl := Except.ok.inj h7
  have := Reader.number_ok h1
  have := Reader.number_ok h3
  have h8 := congrArg List.length (Reader.bytes_ok h5).1
  rw [List.length_append] at h8
  change _ = 6 + payload.length + _
  omega

theorem Uef.work_poll_lt {t : Uef} {d : Cycles} (hf : t.isFinished = false)
    (h : t.poll.delay = .ok d) : t.poll.tape.work < t.work := by
  revert h
  unfold poll
  split
  · next p hp =>
    intro _
    have := Uef.leftWork_resume_lt t.tuning p
    simp only [perform, work, hp, Uef.leftWork_some]
    omega
  · next hp =>
    have he : t.cursor.atEnd = false := by simpa [isFinished, hp] using hf
    rw [he]
    simp only [Bool.false_eq_true, ↓reduceIte]
    split
    · intro h; simp at h
    · next chunk cursor hr =>
      intro _
      have h1 := Uef.length_of_read hr
      have h2 := Uef.leftWork_begin_le t.tuning chunk
      simp only [perform, work, hp, Uef.leftWork_none] at h2 ⊢
      omega

/-! ### Either format -/

/-- A bound on the units of work that are left. -/
def work : Tape → Nat
  | .tapefile t => t.work
  | .uef t => t.work

theorem work_poll_lt {t : Tape} {control : UInt8} {d : Cycles} (hf : t.isFinished = false)
    (h : (t.poll control).delay = .ok d) : (t.poll control).tape.work < t.work := by
  cases t with
  | tapefile t => exact Tapefile.work_poll_lt hf h
  | uef t => exact Uef.work_poll_lt hf h

/-- At the end of a tape every unit takes the idle time. -/
theorem delay_of_isFinished {t : Tape} {control : UInt8} (hf : t.isFinished = true) :
    (t.poll control).delay = .ok idleDelay := by
  cases t with
  | tapefile t =>
    change (t.poll control).delay = _
    unfold Tapefile.poll
    rw [show t.cursor.atEnd = true from hf]
    rfl
  | uef t =>
    obtain ⟨hp, he⟩ : t.playing.isNone = true ∧ t.cursor.atEnd = true := by
      simpa [isFinished, Uef.isFinished] using hf
    change t.poll.delay = _
    unfold Uef.poll
    rw [Option.isNone_iff_eq_none.mp hp, he]
    rfl

theorem isFinished_eq_false_of_delay {t : Tape} {control : UInt8}
    (h : (t.poll control).delay = .ok 0) : t.isFinished = false := by
  cases hf : t.isFinished with
  | false => rfl
  | true =>
    rw [delay_of_isFinished hf] at h
    exact absurd (Except.ok.inj h) (by decide)

/-- Play units of work up to the first that takes time or fails. -/
def run (control : UInt8) (t : Tape) : List (Played Tape) :=
  let p := t.poll control
  match h : p.delay with
  | .error _ => [p]
  | .ok d =>
    if hd : d = 0 then
      have := work_poll_lt (isFinished_eq_false_of_delay (hd ▸ h)) h
      p :: run control p.tape
    else [p]
termination_by t.work

end Cassette.Tape
