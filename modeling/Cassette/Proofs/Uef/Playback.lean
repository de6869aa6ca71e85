import Cassette.Proofs.Tape.Reading
import Cassette.Proofs.Uef.Score

/-!
# A tape plays its score

Between two polls a tape holds a position in its image and what is left of the chunk in
hand.  Both stand for beats that are still to come: the rest of the score of that chunk,
and the score of the chunks after it.  A poll plays the first of these beats and leaves
the others.

## Main definitions

* `Playing.score` — the beats that are left of a chunk in hand.
* `beats` — the beats of so many polls in a row.
* `Holds`, `Reaches` — the chunks that a tape has still to begin, to its end or to some position.

## Main results

* `score_resume`, `score_begin` — a unit of work is the first beat of what it is a unit of.
* `beats_of_holds` — polls play the beats to come, and then are idle.
* `beats_encode` — **polling an image plays its score, and then is idle for ever.**
-/

namespace Cassette.Tape.Uef

open Score

/-- The beat of a unit of work. -/
def Stretch.beat (u : Stretch) : Beat :=
  ⟨u.signals.filter Signal.isCall, u.delay.map (min · maxDelay)⟩

/-! ### Frames cell by cell -/

namespace Score

/-- Cells one after another, the last of them with an arrival. -/
def cells (t : Tuning) (arrival : List Signal) : List Bool → List Beat
  | [] => []
  | [bit] => [cell t arrival bit]
  | bit :: next :: more => cell t [] bit :: cells t arrival (next :: more)

theorem cells_append_singleton (t : Tuning) (arrival : List Signal) (front : List Bool)
    (last : Bool) :
    cells t arrival (front ++ [last]) = front.map (cell t []) ++ [cell t arrival last] := by
  induction front with
  | nil => rfl
  | cons bit front ih =>
    cases front with
    | nil => rfl
    | cons next front => exact congrArg (cell t [] bit :: ·) ih

theorem standardFrame_eq_cells (t : Tuning) (b : UInt8) :
    standardFrame t b = cells t [.byte b] (Framing.standard.cells b) := by
  have h : Framing.standard.cells b
      = (false :: (List.range 8).map b.toNat.testBit) ++ [true] := rfl
  rw [h, cells_append_singleton]
  simp [standardFrame, bits]

/-- The dummy byte is sent with its cells inverted. -/
theorem dummyCells_eq : dummyCells = (List.range 10).map fun i => !dummyPattern.testBit i := by
  decide

theorem dummyFrame_eq_cells (t : Tuning) :
    (List.range 10).map (fun i =>
        cell t (if i = 9 then [.byte 0xAA] else []) (!dummyPattern.testBit i))
      = cells t [.byte dummyByte] dummyCells := by
  rw [dummyCells_eq]
  rfl

/-- Bits at and above the width of a number are clear. -/
theorem ones_eq_count {count value : Nat} (hc : count ≤ 8) (hv : value < 1 <<< count) :
    ones value = ((List.range count).map value.testBit).count true := by
  have hclear : ∀ i, count ≤ i → value.testBit i = false := by
    intro i hi
    rw [Nat.one_shiftLeft] at hv
    exact Nat.testBit_lt_two_pow
      (Nat.lt_of_lt_of_le hv (Nat.pow_le_pow_right Nat.two_pos hi))
  have hsplit : List.range 8 = List.range count ++ (List.range (8 - count)).map (count + ·) := by
    rw [← List.range_add]
    congr 1
    omega
  unfold ones
  rw [hsplit, List.filter_append, List.length_append, List.filter_map]
  have hnone : (List.range (8 - count)).filter (value.testBit ∘ (count + ·)) = [] := by
    rw [List.filter_eq_nil_iff]
    intro i _
    simp [hclear (count + i) (Nat.le_add_right ..)]
  rw [hnone, List.count_eq_countP, List.countP_map, List.countP_eq_length_filter]
  simp [Function.comp_def]

end Score

theorem Framing.toNat_mask (f : Framing) (b : UInt8) :
    (f.mask b).toNat = b.toNat % 1 <<< f.dataBits := by
  have h1 := b.toNat_lt
  have h2 := Nat.mod_le b.toNat (1 <<< f.dataBits)
  unfold mask
  rw [UInt8.toNat_ofNat']
  exact Nat.mod_eq_of_lt (by omega)

theorem Framing.mask_mask (f : Framing) (b : UInt8) : f.mask (f.mask b) = f.mask b := by
  apply UInt8.toNat_inj.mp
  rw [Framing.toNat_mask, Framing.toNat_mask, Nat.mod_mod]

theorem Framing.mask_standard (b : UInt8) : Framing.standard.mask b = b := by
  apply UInt8.toNat_inj.mp
  rw [Framing.toNat_mask]
  exact Nat.mod_eq_of_lt b.toNat_lt

theorem Score.definedFrame_eq_cells (t : Tuning) (f : Framing) (b : UInt8) :
    definedFrame t f b = cell t [] false ::
      ((f.cells (f.mask b)).tail.map (cell t []) ++ [.sound false [.byte (f.mask b)] 0]) := by
  have hlt : (f.mask b).toNat < 1 <<< f.dataBits := by
    rw [Framing.toNat_mask]
    exact Nat.mod_lt _ (by rw [Nat.one_shiftLeft]; exact Nat.two_pow_pos _)
  have hparity : f.parity.cells (f.dataCells (f.mask b))
      = (parityBit? f.parity (f.mask b).toNat).toList := by
    have hones : (f.dataCells (f.mask b)).count true = ones (f.mask b).toNat :=
      (ones_eq_count f.dataBits_le hlt).symm
    cases f.parity with
    | none => rfl
    | odd => rw [Parity.cells, hones]; rfl
    | even => rw [Parity.cells, hones]; rfl
  simp only [definedFrame, Framing.cells]
  rw [hparity, ← Framing.toNat_mask, UInt8.ofNat_toNat]
  simp [bits, Framing.dataCells]

/-! ### What is left of a chunk -/

/-- The beats that are left of a chunk in hand. -/
def Playing.score (t : Tuning) : Playing → List Beat
  | .standardFrame _ [] _ => [silence t]
  | .standardFrame byte (bit :: cells) rest =>
    Score.cells t [.byte byte] (bit :: cells) ++ rest.flatMap (Score.standardFrame t)
  | .nextFrame f rest => rest.flatMap (Score.definedFrame t f) ++ [silence t]
  | .definedFrame f byte cells rest =>
    cells.map (cell t []) ++ .sound false [.byte byte] 0 ::
      (rest.flatMap (Score.definedFrame t f) ++ [silence t])
  | .dummyFrame cells after => Score.cells t [.byte dummyByte] cells ++ [tone t after]

/-- The same for what may be left of a chunk. -/
def leftScore (t : Tuning) (playing : Option Playing) : List Beat :=
  playing.elim [] (Playing.score t)

@[simp] theorem leftScore_none (t : Tuning) : leftScore t none = [] := rfl

@[simp] theorem leftScore_some (t : Tuning) (p : Playing) : leftScore t (some p) = p.score t := rfl

theorem score_standardFrame_cells (t : Tuning) (byte : UInt8) (rest : List UInt8) :
    (Playing.standardFrame byte (Framing.standard.cells byte) rest).score t
      = (byte :: rest).flatMap (Score.standardFrame t) := by
  rw [List.flatMap_cons, standardFrame_eq_cells]
  rfl

theorem score_standardCell (t : Tuning) (byte : UInt8) (cells : List Bool) (rest : List UInt8) :
    (Playing.standardFrame byte cells rest).score t
      = (Stretch.standardCell t byte cells rest).beat
        :: leftScore t (Stretch.standardCell t byte cells rest).playing := by
  unfold Stretch.standardCell
  split
  · rfl
  · rfl
  · next bit next rest =>
    refine congrArg (Score.cell t [.byte byte] bit :: ·) ?_
    exact (score_standardFrame_cells t next rest).symm
  · next bit cells hlast hmore =>
    cases cells with
    | nil =>
      cases rest with
      | nil => exact absurd rfl (hlast rfl)
      | cons next rest => exact absurd rfl (hmore next rest rfl)
    | cons next cells => rfl

theorem score_frameStart (t : Tuning) (f : Framing) (noted : List Signal)
    (hnoted : noted.filter Signal.isCall = []) (rest : List UInt8) :
    (Playing.nextFrame f rest).score t
      = (Stretch.frameStart t f noted rest).beat
        :: leftScore t (Stretch.frameStart t f noted rest).playing := by
  cases rest with
  | nil =>
    simp [Playing.score, Stretch.frameStart, Stretch.last, Stretch.beat, silence, Beat.sound,
      List.filter_cons, hnoted, Except.map]
  | cons byte rest =>
    have hbeat : (Stretch.frameStart t f noted (byte :: rest)).beat = cell t [] false := by
      simp [Stretch.frameStart, Stretch.more, Stretch.beat, cell, Beat.sound, List.filter_cons,
        hnoted, Except.map, Tuning.cell, cellTone]
    rw [hbeat]
    simp [Playing.score, Stretch.frameStart, Stretch.more, definedFrame_eq_cells]

/-- A unit of a chunk in hand is the first beat of what is left of it. -/
theorem score_resume (t : Tuning) (p : Playing) :
    p.score t = (Stretch.resume t p).beat :: leftScore t (Stretch.resume t p).playing := by
  cases p with
  | standardFrame byte cells rest => exact score_standardCell t byte cells rest
  | nextFrame f rest => exact score_frameStart t f [] rfl rest
  | definedFrame f byte cells rest => cases cells <;> rfl
  | dummyFrame cells after =>
    cases cells with
    | nil => rfl
    | cons bit cells => cases cells <;> rfl

theorem base_resume (t : Tuning) (p : Playing) : (Stretch.resume t p).base = t.base := by
  cases p with
  | standardFrame byte cells rest =>
    change (Stretch.standardCell t byte cells rest).base = t.base
    unfold Stretch.standardCell
    split <;> rfl
  | nextFrame f rest => cases rest <;> rfl
  | definedFrame f byte cells rest => cases cells <;> rfl
  | dummyFrame cells after => cases cells <;> rfl

/-! ### The first unit of a chunk -/

theorem readFraming_cons (bits letter stopBits : UInt8) (data : List UInt8) :
    Stretch.readFraming (.start .uefChunk (bits :: letter :: stopBits :: data))
      = (.ok (⟨min bits.toNat 8, (Parity.ofLetter? letter).getD .none, stopBits,
          Nat.min_le_right ..⟩, 3), ⟨.uefChunk, 3, data⟩) := by
  refine (Reader.bind_eq_of_ok (Reader.byte_cons bits _)).trans ?_
  refine (Reader.bind_eq_of_ok (Reader.byte_cons letter _)).trans ?_
  exact Reader.bind_eq_of_ok (Reader.byte_cons stopBits _)

theorem readFraming_short {payload : List UInt8} (h : payload.length < 3) :
    Stretch.readFraming (.start .uefChunk payload)
      = (.error (.truncated .uefChunk payload.length 1 0),
          ⟨.uefChunk, payload.length, []⟩) := by
  match payload with
  | [] => exact Reader.bind_eq_of_error Reader.byte_nil
  | [bits] =>
    refine (Reader.bind_eq_of_ok (Reader.byte_cons bits _)).trans ?_
    exact Reader.bind_eq_of_error Reader.byte_nil
  | [bits, letter] =>
    refine (Reader.bind_eq_of_ok (Reader.byte_cons bits _)).trans ?_
    refine (Reader.bind_eq_of_ok (Reader.byte_cons letter _)).trans ?_
    exact Reader.bind_eq_of_error Reader.byte_nil
  | _ :: _ :: _ :: _ =>
    simp only [List.length_cons] at h
    omega

theorem filter_framingWarnings (payload : List UInt8) :
    (Stretch.framingWarnings payload).filter Signal.isCall = [] := by
  rcases payload with - | ⟨bits, - | ⟨letter, rest⟩⟩
  · rfl
  · simp only [Stretch.framingWarnings, List.append_nil]
    split <;> rfl
  · simp only [Stretch.framingWarnings, List.filter_append]
    split <;> split <;> rfl

theorem score_definedData (t : Tuning) (payload : List UInt8) :
    Score.definedData t payload = (Stretch.definedData t payload).beat
      :: leftScore t (Stretch.definedData t payload).playing := by
  by_cases h : payload.length < 3
  · have hscore : Score.definedData t payload
        = [.short [.carrier false] payload.length 1 payload] := by
      unfold Score.definedData
      split
      · simp only [List.length_cons] at h
        omega
      · rfl
    have hbeat : Stretch.definedData t payload
        = Stretch.failed t (.carrier false :: Stretch.framingWarnings payload)
            (.truncated .uefChunk payload.length 1 0) := by
      unfold Stretch.definedData
      simp only [readFraming_short h]
    rw [hscore, hbeat]
    simp [Stretch.failed, Stretch.beat, Beat.short, List.filter_cons, filter_framingWarnings,
      Except.map]
  · rcases payload with - | ⟨bits, - | ⟨letter, - | ⟨stopBits, data⟩⟩⟩
    · simp at h
    · simp at h
    · simp at h
    · unfold Stretch.definedData
      simp only [readFraming_cons]
      refine score_frameStart t _ _ ?_ data
      rw [List.filter_append, filter_framingWarnings]
      rfl

theorem score_carrier (t : Tuning) (payload : List UInt8) :
    Score.carrier t payload = (Stretch.carrier t payload).beat
      :: leftScore t (Stretch.carrier t payload).playing := by
  match payload with
  | a :: b :: _ => rfl
  | [] | [_] => rfl

theorem score_carrierWithDummy (t : Tuning) (payload : List UInt8) :
    Score.carrierWithDummy t payload = (Stretch.dummyLeadIn t payload).beat
      :: leftScore t (Stretch.dummyLeadIn t payload).playing := by
  match payload with
  | a :: b :: c :: d :: _ =>
    unfold Score.carrierWithDummy
    rw [dummyFrame_eq_cells]
    rfl
  | [_, _, _] | [_, _] | [_] | [] => rfl

theorem score_integerGap (t : Tuning) (payload : List UInt8) :
    Score.integerGap t payload = (Stretch.integerGap t payload).beat
      :: leftScore t (Stretch.integerGap t payload).playing := by
  match payload with
  | a :: b :: _ => rfl
  | [] | [_] => rfl

theorem readBinary32_cons (a b c d : UInt8) (rest : List UInt8) :
    Stretch.readBinary32 (.start .uefChunk (a :: b :: c :: d :: rest))
      = (.ok (binary32 [a, b, c, d]), ⟨.uefChunk, 4, rest⟩) := rfl

theorem score_floatGap (t : Tuning) (payload : List UInt8) :
    Score.floatGap t payload = (Stretch.floatGap t payload).beat
      :: leftScore t (Stretch.floatGap t payload).playing := by
  match payload with
  | a :: b :: c :: d :: _ =>
    simp only [Score.floatGap, Stretch.floatGap, readBinary32_cons]
    split <;> rfl
  | [_, _, _] | [_, _] | [_] | [] => rfl

theorem score_baseFrequency (t : Tuning) (payload : List UInt8) :
    Score.baseFrequency t payload = (Stretch.baseFrequency t payload).beat
      :: leftScore t (Stretch.baseFrequency t payload).playing := by
  match payload with
  | a :: b :: c :: d :: _ =>
    simp only [Score.baseFrequency, Stretch.baseFrequency, readBinary32_cons, newBase?]
    split <;> rfl
  | [_, _, _] | [_, _] | [_] | [] => rfl

/-- The first unit of a chunk is the first beat of its score. -/
theorem score_begin (t : Tuning) (c : Chunk) :
    Score.chunk t c = (Stretch.begin t c).beat :: leftScore t (Stretch.begin t c).playing := by
  unfold Score.chunk Stretch.begin
  split
  · next hk =>
    rw [hk]
    dsimp only
    cases c.payload with
    | nil => rfl
    | cons byte rest =>
      refine Eq.trans ?_ (score_standardCell t byte (Framing.standard.cells byte) rest)
      exact (score_standardFrame_cells t byte rest).symm
  all_goals
    next hk =>
    rw [hk]
    first
      | exact score_definedData t c.payload
      | exact score_carrier t c.payload
      | exact score_carrierWithDummy t c.payload
      | exact score_integerGap t c.payload
      | exact score_baseFrequency t c.payload
      | exact score_floatGap t c.payload
      | rfl

theorem base_baseFrequency (t : Tuning) (payload : List UInt8) :
    (Stretch.baseFrequency t payload).base = (newBase? payload).getD t.base := by
  match payload with
  | a :: b :: c :: d :: _ =>
    simp only [Stretch.baseFrequency, readBinary32_cons, newBase?]
    split <;> rfl
  | [_, _, _] | [_, _] | [_] | [] => rfl

theorem base_begin (t : Tuning) (c : Chunk) :
    (Stretch.begin t c).base = baseAfter t.base c := by
  unfold Stretch.begin baseAfter
  split
  case h_2 hk =>
    rw [hk]
    cases c.payload with
    | nil => rfl
    | cons byte rest => exact base_resume t (.standardFrame byte _ rest)
  case h_3 hk =>
    rw [hk]
    simp only [Stretch.definedData]
    split
    · rfl
    · next framing used _ _ => cases c.payload.drop used <;> rfl
  case h_7 hk =>
    rw [hk]
    exact base_baseFrequency t c.payload
  all_goals
    next hk =>
    rw [hk]
    simp only [Stretch.telling, Stretch.carrier, Stretch.dummyLeadIn, Stretch.integerGap,
      Stretch.floatGap]
    repeat' split
    all_goals first | rfl | contradiction

/-- Only a unit that ends its chunk changes the base tone. -/
theorem leftScore_begin (t : Tuning) (c : Chunk) :
    leftScore { t with base := (Stretch.begin t c).base } (Stretch.begin t c).playing
      = leftScore t (Stretch.begin t c).playing := by
  by_cases hk : c.kind = .baseFrequency
  · have hend : (Stretch.begin t c).playing = none := by
      unfold Stretch.begin Stretch.baseFrequency
      rw [hk]
      dsimp only
      repeat' split
      all_goals rfl
    rw [hend, leftScore_none, leftScore_none]
  · rw [base_begin, baseAfter, if_neg hk]

/-! ### Polls in a row -/

/-- The beats of the next `n` polls. -/
def beats : Nat → Uef → List Beat
  | 0, _ => []
  | n + 1, t => t.poll.beat :: beats n t.poll.tape

/-- After the chunks that have been begun, a tape holds the given ones and nothing else. -/
structure Holds (t : Uef) (chunks : List Chunk) : Prop where
  rest : t.cursor.rest = chunks.flatMap Chunk.encode
  short : ∀ c ∈ chunks, c.payload.length < 0x100000000

/-- The beats to come: those left of the chunk in hand, and those of the chunks after it. -/
def upcoming (t : Uef) (chunks : List Chunk) : List Beat :=
  leftScore t.tuning t.playing ++ score t.clock t.base chunks

/-- The notices told before a unit of work do not belong to its beat. -/
theorem beat_perform (t : Uef) (notices : List Notice) (u : Stretch) :
    (t.perform (notices.map .note) u).beat = u.beat := by
  have hnone : (notices.map Signal.note).filter Signal.isCall = [] := by
    rw [List.filter_map, List.map_eq_nil_iff]
    exact List.filter_eq_nil_iff.mpr fun notice _ => by simp
  simp [perform, Played.beat, Stretch.beat, hnone]

/-- Between the position of a tape and the position `stop` stand the given chunks. -/
structure Reaches (t : Uef) (chunks : List Chunk) (stop : Cursor) : Prop where
  region : t.cursor.region = stop.region
  offset : t.cursor.offset + (chunks.flatMap Chunk.encode).length = stop.offset
  rest : t.cursor.rest = chunks.flatMap Chunk.encode ++ stop.rest
  short : ∀ c ∈ chunks, c.payload.length < 0x100000000

theorem Reaches.holds {t : Uef} {chunks : List Chunk} {stop : Cursor} (h : t.Reaches chunks stop)
    (hend : stop.rest = []) : t.Holds chunks := by
  refine ⟨?_, h.short⟩
  rw [h.rest, hend, List.append_nil]

theorem Holds.reaches {t : Uef} {chunks : List Chunk} (h : t.Holds chunks) :
    t.Reaches chunks
      ⟨t.cursor.region, t.cursor.offset + (chunks.flatMap Chunk.encode).length, []⟩ :=
  ⟨rfl, rfl, h.rest.trans (List.append_nil _).symm, h.short⟩

/-- A poll plays the first beat of what is left of the chunk in hand. -/
theorem Reaches.resume {t : Uef} {chunks : List Chunk} {stop : Cursor} (h : t.Reaches chunks stop)
    {p : Playing} (hp : t.playing = some p) :
    t.poll.tape.Reaches chunks stop ∧
      upcoming t chunks = t.poll.beat :: upcoming t.poll.tape chunks := by
  have hpoll : t.poll = t.perform ([].map .note) (.resume t.tuning p) := by
    unfold Uef.poll
    rw [hp]
    rfl
  rw [hpoll, beat_perform]
  refine ⟨⟨h.region, h.offset, h.rest, h.short⟩, ?_⟩
  unfold upcoming
  rw [hp, leftScore_some, score_resume]
  simp only [perform, tuning, base_resume, List.cons_append]

/-- With no chunk in hand, a poll reads the next one and plays its first beat. -/
theorem Reaches.begin {t : Uef} {c : Chunk} {chunks : List Chunk} {stop : Cursor}
    (h : t.Reaches (c :: chunks) stop) (hp : t.playing = none) :
    t.poll.tape.Reaches chunks stop ∧
      upcoming t (c :: chunks) = t.poll.beat :: upcoming t.poll.tape chunks := by
  have hrest : t.cursor.rest = c.encode ++ (chunks.flatMap Chunk.encode ++ stop.rest) := by
    rw [h.rest, List.flatMap_cons, List.append_assoc]
  have hend : t.cursor.atEnd = false := by
    simp [Cursor.atEnd, hrest, c.encode_ne_nil]
  have hread := c.read_encode t.cursor.region t.cursor.offset
    (chunks.flatMap Chunk.encode ++ stop.rest) (h.short c (by simp))
  rw [← hrest] at hread
  have hread : Chunk.read t.cursor = _ := hread
  have hoffset : t.cursor.offset + c.encode.length + (chunks.flatMap Chunk.encode).length
      = stop.offset := by
    rw [← h.offset, List.flatMap_cons, List.length_append, Nat.add_assoc]
  unfold Uef.poll
  simp only [hp, hend, Bool.false_eq_true, ↓reduceIte, hread]
  refine ⟨⟨h.region, hoffset, rfl, fun d hd => h.short d (by simp [hd])⟩, ?_⟩
  rw [show ∀ n, [Signal.note n] = [n].map .note from fun _ => rfl, beat_perform]
  unfold upcoming
  rw [hp, leftScore_none, List.nil_append, score, score_begin, ← base_begin ⟨t.clock, t.base⟩,
    ← leftScore_begin]
  rfl

/-- While beats are to come before a position, a poll plays the first of them. -/
theorem Reaches.poll {t : Uef} {chunks : List Chunk} {stop : Cursor} (h : t.Reaches chunks stop)
    (hne : upcoming t chunks ≠ []) :
    ∃ chunks', t.poll.tape.Reaches chunks' stop ∧
      upcoming t chunks = t.poll.beat :: upcoming t.poll.tape chunks' := by
  cases hp : t.playing with
  | some p => exact ⟨chunks, h.resume hp⟩
  | none =>
    cases chunks with
    | nil => simp [upcoming, hp, score] at hne
    | cons c chunks => exact ⟨chunks, h.begin hp⟩

/-- While beats are to come, a poll plays the first of them. -/
theorem upcoming_poll {t : Uef} {chunks : List Chunk} (h : t.Holds chunks)
    (hne : upcoming t chunks ≠ []) :
    ∃ chunks', t.poll.tape.Holds chunks' ∧
      upcoming t chunks = t.poll.beat :: upcoming t.poll.tape chunks' := by
  obtain ⟨chunks', h', hcons⟩ := h.reaches.poll hne
  exact ⟨chunks', h'.holds rfl, hcons⟩

/-- With no beats to come before a position, the tape is there and has no chunk in hand. -/
theorem Reaches.of_upcoming_nil {t : Uef} {chunks : List Chunk} {stop : Cursor}
    (h : t.Reaches chunks stop) (hnil : upcoming t chunks = []) :
    t.playing = none ∧ chunks = [] ∧ t.cursor = stop := by
  unfold upcoming at hnil
  have hplaying : t.playing = none := by
    cases hp : t.playing with
    | none => rfl
    | some p =>
      rw [hp, leftScore_some, score_resume] at hnil
      simp at hnil
  have hchunks : chunks = [] := by
    cases chunks with
    | nil => rfl
    | cons c chunks =>
      rw [score, score_begin] at hnil
      simp at hnil
  refine ⟨hplaying, hchunks, ?_⟩
  obtain ⟨hregion, hoffset, hrest, -⟩ := h
  rw [hchunks] at hoffset hrest
  cases hcursor : t.cursor with
  | mk region offset rest =>
    rw [hcursor] at hregion hoffset hrest
    cases stop with
    | mk region' offset' rest' =>
      cases hregion
      cases hoffset
      cases hrest
      rfl

/-- With no beats to come, a poll is idle and leaves the tape where it is. -/
theorem poll_of_upcoming_nil {t : Uef} {chunks : List Chunk} (h : t.Holds chunks)
    (hnil : upcoming t chunks = []) : t.poll.beat = .idle ∧ t.poll.tape = t := by
  obtain ⟨hplaying, -, hcursor⟩ := h.reaches.of_upcoming_nil hnil
  have hend : t.cursor.atEnd = true := by
    rw [hcursor]
    rfl
  simp [poll, hplaying, hend, Played.beat, Beat.idle]

theorem beats_of_holds {t : Uef} {chunks : List Chunk} (h : t.Holds chunks) (n : Nat) :
    t.beats n = (upcoming t chunks).take n
      ++ List.replicate (n - (upcoming t chunks).length) .idle := by
  induction n generalizing t chunks with
  | zero => simp [beats]
  | succ n ih =>
    by_cases hnil : upcoming t chunks = []
    · obtain ⟨hbeat, htape⟩ := poll_of_upcoming_nil h hnil
      simp [beats, hbeat, htape, ih h, hnil, List.replicate_succ]
    · obtain ⟨chunks', h', hcons⟩ := upcoming_poll h hnil
      simp [beats, ih h', hcons]

/-! ### From the start of an image -/

theorem readHeader_encode (minor : UInt8) (chunks : List Chunk) :
    readHeader (encode minor chunks) = .ok minor := by
  have hmagic : magic.isPrefixOf (encode minor chunks) = true := by
    rw [List.isPrefixOf_iff_prefix, encode, header, List.append_assoc]
    exact List.prefix_append ..
  have hversion : readHeader.version (.seek .uefImage (encode minor chunks) magic.length)
      = (.ok minor, ⟨.uefImage, 12, chunks.flatMap Chunk.encode⟩) := by
    have hstart : Cursor.seek .uefImage (encode minor chunks) magic.length
        = ⟨.uefImage, 10, minor :: 0 :: chunks.flatMap Chunk.encode⟩ := rfl
    rw [hstart]
    refine (Reader.bind_eq_of_ok (Reader.byte_cons minor _)).trans ?_
    exact Reader.bind_eq_of_ok (Reader.byte_cons 0 _)
  unfold readHeader
  rw [hmagic, hversion]
  rfl

/-- A tape that has just been opened holds all the chunks of its image. -/
theorem holds_ofImage (minor : UInt8) (clock : Clock) {chunks : List Chunk}
    (h : ∀ c ∈ chunks, c.payload.length < 0x100000000) :
    (ofImage (encode minor chunks) clock).Holds chunks :=
  ⟨rfl, h⟩

/-- **A tape plays its score.**  An image of any chunks opens, and its polls give the
beats of the score one after another, and idle beats for ever after. -/
theorem beats_encode (minor : UInt8) (clock : Clock) (chunks : List Chunk)
    (h : ∀ c ∈ chunks, c.payload.length < 0x100000000) :
    ∃ tape, load (encode minor chunks) clock = .ok (.version 0 minor, tape) ∧
      ∀ n, tape.beats n = (score clock defaultBase chunks).take n
        ++ List.replicate (n - (score clock defaultBase chunks).length) .idle := by
  refine ⟨ofImage (encode minor chunks) clock, ?_, ?_⟩
  · unfold load
    rw [readHeader_encode]
    rfl
  · intro n
    exact beats_of_holds (holds_ofImage minor clock h) n

/-- Two bytes in each format, a new base tone, a dummy byte, and a carrier without its
length: its score has 59 beats. -/
theorem beats_encode_mixed :
    let chunks : List Chunk := [⟨0x0100, [0x41, 0xFF]⟩, ⟨0x0104, [7, 0x45, 2, 0xC3, 0x01]⟩,
      ⟨0x0113, [0, 0, 0x16, 0x44]⟩, ⟨0x0111, [1, 0, 2, 0]⟩, ⟨0x0110, [3]⟩]
    (∀ c ∈ chunks, c.payload.length < 0x100000000) ∧
      (score .standard defaultBase chunks).length = 59 ∧
      ∃ tape, load (encode 10 chunks) .standard = .ok (.version 0 10, tape) ∧
        ∀ n, tape.beats n = (score .standard defaultBase chunks).take n
          ++ List.replicate (n - (score .standard defaultBase chunks).length) .idle :=
  ⟨by decide, by rfl, beats_encode 10 .standard _ (by decide)⟩

end Cassette.Tape.Uef
