import Cassette.Proofs.Tape.Beat

/-!
# Units that take no time

On a slow clock, or over a high base tone, any unit of work may take no time, and the next one is
then played at once.  A unit uses up a byte of the image, a byte of the chunk in hand or a cell of
the frame on the wire, and a frame has a few hundred cells at most.  So the bytes that are left
bound a run of such units, wherever in a chunk it begins; and past the last byte a unit takes the
idle time.

## Main definitions

* `Tape.Reachable` — a tape that some image has been played to.
* `Uef.Playing.Framed` — no more cells are left than a frame has.
* `imageLeft`, `chunkLeft` — the bytes that are left.
* `afterPolls` — a tape after so many polls.

## Main results

* `Reachable.framed` — whatever is in hand is framed.
* `Reachable.work_lt` — the bytes that are left bound the work that is left.
* `exists_run` — a run is polls without a delay, and a last one that has a delay or fails.
-/

namespace Cassette.Tape

/-- A tape that an image has been played to by polls, of any kind and with any outcome, and by
going back to its start. -/
inductive Reachable : Tape → Prop where
  | opened {format : Format} {image : List UInt8} {clock : Clock} {told : List Notice} {t : Tape} :
      ofImage format image clock = (told, .ok t) → Reachable t
  | poll {t : Tape} (control : UInt8) : Reachable t → Reachable (t.poll control).tape
  | rewind {t : Tape} : Reachable t → Reachable t.rewind

/-- So is an image that has been recognised, and inflated if it was compressed. -/
theorem Reachable.load {data : List UInt8} {clock : Clock} {told : List Notice} {t : Tape}
    (h : Tape.load data clock = (told, .ok t)) : Reachable t := by
  obtain ⟨format, image, more, hopened⟩ := exists_ofImage_of_load h
  exact .opened hopened

/-! ### The frame on the wire -/

namespace Uef

/-- No more cells are left than a frame has. -/
def Playing.Framed : Playing → Prop
  | .standardFrame _ cells _ => cells.length ≤ Framing.standard.length
  | .nextFrame _ _ => True
  | .definedFrame framing _ cells _ => cells.length ≤ framing.length
  | .dummyFrame cells _ => cells.length ≤ dummyCells.length

theorem framed_standardCell (t : Tuning) (byte : UInt8) {cells : List Bool} (rest : List UInt8)
    (h : cells.length ≤ Framing.standard.length) :
    ∀ p ∈ (Stretch.standardCell t byte cells rest).playing, p.Framed := by
  unfold Stretch.standardCell
  split
  · simp [Stretch.last]
  · simp [Stretch.last]
  · simp [Stretch.more, Playing.Framed]
  · intro p hp
    obtain rfl := Option.some.inj hp
    simp only [Playing.Framed, List.length_cons] at h ⊢
    omega

theorem framed_frameStart (t : Tuning) (framing : Framing) (noted : List Signal)
    (rest : List UInt8) : ∀ p ∈ (Stretch.frameStart t framing noted rest).playing, p.Framed := by
  cases rest with
  | nil => simp [Stretch.frameStart, Stretch.last]
  | cons byte rest =>
    intro p hp
    obtain rfl := Option.some.inj hp
    simp [Playing.Framed]

theorem framed_resume (t : Tuning) {p : Playing} (h : p.Framed) :
    ∀ q ∈ (Stretch.resume t p).playing, q.Framed := by
  intro q hq
  cases p with
  | standardFrame byte cells rest => exact framed_standardCell t byte rest h q hq
  | nextFrame framing rest => exact framed_frameStart t framing [] rest q hq
  | definedFrame framing byte cells rest =>
    cases cells with
    | nil =>
      obtain rfl := Option.some.inj hq
      trivial
    | cons cell cells =>
      obtain rfl := Option.some.inj hq
      exact Nat.le_of_succ_le h
  | dummyFrame cells after =>
    cases cells with
    | nil => simp [Stretch.resume, Stretch.dummyCell, Stretch.last] at hq
    | cons cell cells =>
      obtain rfl := Option.some.inj hq
      exact Nat.le_of_succ_le h

theorem framed_definedData (t : Tuning) (payload : List UInt8) :
    ∀ p ∈ (Stretch.definedData t payload).playing, p.Framed := by
  unfold Stretch.definedData
  dsimp only
  split
  · simp [Stretch.failed]
  · exact framed_frameStart _ _ _ _

theorem framed_begin (t : Tuning) (c : Chunk) : ∀ p ∈ (Stretch.begin t c).playing, p.Framed := by
  unfold Stretch.begin
  split
  case h_2 =>
    unfold Stretch.standardData
    split
    · simp [Stretch.last]
    · exact framed_standardCell t _ _ (by simp)
  case h_3 => exact framed_definedData t c.payload
  case h_5 =>
    unfold Stretch.dummyLeadIn
    split
    · simp [Stretch.failed]
    · simp [Stretch.more, Playing.Framed]
  -- the other kinds of chunk are one unit
  all_goals
    simp only [Stretch.telling, Stretch.carrier, Stretch.integerGap, Stretch.baseFrequency,
      Stretch.floatGap, Stretch.last, Stretch.failed]
    repeat' split
    all_goals simp

theorem framed_poll {t : Uef} (h : ∀ p ∈ t.playing, p.Framed) :
    ∀ p ∈ t.poll.tape.playing, p.Framed := by
  unfold poll
  split
  · next playing hp => exact framed_resume t.tuning (h playing hp)
  · split
    · exact h
    · split
      · exact h
      · next chunk cursor _ => exact framed_begin t.tuning chunk

/-- The bytes of a chunk after the one on the wire. -/
def Playing.bytesLeft : Playing → Nat
  | .standardFrame _ _ rest => rest.length
  | .nextFrame _ rest => rest.length
  | .definedFrame _ _ _ rest => rest.length
  | .dummyFrame _ _ => 0

/-- The longest frame, of 265 cells, is over after 266 units. -/
theorem Playing.Framed.work_lt {p : Playing} (h : p.Framed) :
    p.work < 300 * (p.bytesLeft + 1) := by
  have hstandard : Framing.standard.length = 10 := rfl
  have hdummy : dummyCells.length = 10 := rfl
  cases p with
  | standardFrame byte cells rest =>
    have h : cells.length ≤ Framing.standard.length := h
    simp only [Playing.work, Playing.bytesLeft]
    omega
  | nextFrame framing rest =>
    have hframe := Nat.mul_le_mul_right rest.length (Nat.add_le_add_right framing.length_le 1)
    simp only [Playing.work, Playing.bytesLeft]
    omega
  | definedFrame framing byte cells rest =>
    have h : cells.length ≤ framing.length := h
    have hle := framing.length_le
    have hframe := Nat.mul_le_mul_right rest.length (Nat.add_le_add_right hle 1)
    simp only [Playing.work, Playing.bytesLeft]
    omega
  | dummyFrame cells after =>
    have h : cells.length ≤ dummyCells.length := h
    simp only [Playing.work, Playing.bytesLeft]
    omega

end Uef

/-! ### The work that is left -/

/-- The bytes of the image that are not in hand yet. -/
def imageLeft : Tape → Nat
  | .tapefile t => t.cursor.rest.length
  | .uef t => t.cursor.rest.length

/-- The bytes of the chunk in hand after the one on the wire; a tapefile has no chunks. -/
def chunkLeft : Tape → Nat
  | .tapefile _ => 0
  | .uef t => t.playing.elim 0 Uef.Playing.bytesLeft

/-- Whatever is in hand is framed. -/
def Framed : Tape → Prop
  | .tapefile _ => True
  | .uef t => ∀ p ∈ t.playing, p.Framed

theorem Reachable.framed {t : Tape} (h : Reachable t) : t.Framed := by
  induction h with
  | @opened format image clock told t hopened =>
    obtain rfl := eq_start_of_ofImage hopened
    cases format with
    | tapefile => trivial
    | uef => simp [Framed, start, Uef.ofImage]
  | @poll t control _ ih =>
    cases t with
    | tapefile t => trivial
    | uef t => exact Uef.framed_poll ih
  | @rewind t _ ih =>
    cases t with
    | tapefile t => trivial
    | uef t => simp [Framed, Tape.rewind, Uef.rewind, Uef.ofImage]

/-- The bytes that are left bound the work that is left. -/
theorem Reachable.work_lt {t : Tape} (h : Reachable t) :
    t.work < 300 * (t.imageLeft + t.chunkLeft + 1) := by
  have hframed := h.framed
  cases t with
  | tapefile t =>
    simp only [work, Tapefile.work, imageLeft, chunkLeft]
    omega
  | uef t =>
    simp only [work, Uef.work, imageLeft, chunkLeft]
    cases hp : t.playing with
    | none =>
      simp only [Uef.leftWork_none, Option.elim]
      omega
    | some p =>
      have hlt := (hframed p hp).work_lt
      simp only [Uef.leftWork_some, Option.elim]
      omega

/-! ### Polls in a row -/

/-- A tape after so many polls. -/
def afterPolls (control : UInt8) : Nat → Tape → Tape
  | 0, t => t
  | n + 1, t => afterPolls control n (t.poll control).tape

theorem length_run_le (control : UInt8) (t : Tape) : (t.run control).length ≤ t.work + 1 := by
  induction t using run_induct control with
  | last t h => simp
  | more t h ih =>
    have hlt := work_poll_lt (isFinished_eq_false_of_delay h) h
    rw [List.length_cons]
    omega

/-- A run is polls without a delay, and a last one that has a delay or fails. -/
theorem exists_run (control : UInt8) (t : Tape) :
    ∃ n, t.run control
        = (List.range (n + 1)).map (fun k => (t.afterPolls control k).poll control) ∧
      (∀ k < n, ((t.afterPolls control k).poll control).delay = .ok 0) ∧
      ((t.afterPolls control n).poll control).delay ≠ .ok 0 := by
  induction t using run_induct control with
  | last t h => exact ⟨0, rfl, fun k hk => absurd hk (Nat.not_lt_zero k), h⟩
  | more t h ih =>
    obtain ⟨n, hrun, hearlier, hlast⟩ := ih
    refine ⟨n + 1, ?_, ?_, hlast⟩
    · rw [hrun, @List.range_succ_eq_map (n + 1), List.map_cons, List.map_map]
      rfl
    · intro k hk
      cases k with
      | zero => exact h
      | succ k => exact hearlier k (Nat.lt_of_succ_lt_succ hk)

end Cassette.Tape
