import Cassette.Proofs.Uef.Carrier

/-!
# What a UEF tape can be played on

After its header an image is a sequence of chunks, and an image that is anything else is found out
only when the playing comes to it.  Then the first error is that of the first read that does not
find its bytes: of the image, if the image ends inside a chunk, or of a payload that is too short
for its kind.  Until then everything has been played as if the rest were in order.

## Main definitions

* `leastPayload`, `Chunk.Whole` — a chunk whose payload is long enough.
* `ChunkKind.fields`, `shortRead?` — the reads that a chunk begins with, and the first that fails.
* `Flaw` — what is wrong with the bytes at a position, and the error that tells of it.
* `FirstError` — the poll in which a tape fails first.

## Main results

* `shortRead?_eq_none` — no read fails when there are bytes for all of them.
* `exists_chunks` — every image is whole chunks and perhaps a flaw after them.
* `Reaches.played` — whole chunks are played in full, whatever stands after them.
* `Flaw.delay_poll` — a flaw is found out by the poll that comes to it.
* `playable_iff` — **a tape plays to its end exactly if it is whole chunks, and fails first at the
  first flaw otherwise.**
-/

namespace Cassette.Tape.Uef

/-! ### Reads in a row -/

/-- The first of some reads in a row that does not find its bytes among `length`, by its offset and
the bytes that it needs. -/
def shortRead? (length : Nat) : Nat → List Nat → Option (Nat × Nat)
  | _, [] => none
  | offset, width :: widths =>
    if offset + width ≤ length then shortRead? length (offset + width) widths
    else some (offset, width)

/-- The bytes that some reads in a row need together. -/
def span : List Nat → Nat
  | [] => 0
  | width :: widths => width + span widths

/-- No read fails when there are bytes for all of them. -/
theorem shortRead?_eq_none {length offset : Nat} {widths : List Nat} (h : offset ≤ length) :
    shortRead? length offset widths = none ↔ offset + span widths ≤ length := by
  induction widths generalizing offset with
  | nil => exact ⟨fun _ => h, fun _ => rfl⟩
  | cons width widths ih =>
    rw [shortRead?, span, ← Nat.add_assoc]
    split
    · next hfits => exact ih hfits
    · next hshort =>
      constructor
      · intro hnone
        simp at hnone
      · intro hspan
        omega

/-! ### Whole chunks -/

/-- The smallest payload that a chunk can be played with. -/
def leastPayload (id : UInt16) : Nat :=
  match id.toNat with
  | 0x0110 | 0x0112 => 2
  | 0x0104 => 3
  | 0x0111 | 0x0113 | 0x0116 => 4
  | _ => 0

/-- A chunk that can be written and has the payload that it needs. -/
structure Chunk.Whole (c : Chunk) : Prop where
  short : c.payload.length < 0x100000000
  filled : leastPayload c.id ≤ c.payload.length

/-- The numbers that the payload of a chunk begins with, by their bytes. -/
def ChunkKind.fields : ChunkKind → List Nat
  | .carrier | .integerGap => [2]
  | .definedData => [1, 1, 1]
  | .carrierWithDummy => [2, 2]
  | .baseFrequency | .floatGap => [4]
  | .origin | .implicitData | .securityCycles | .phaseChange | .unknown => []

theorem span_fields (c : Chunk) : span c.kind.fields = leastPayload c.id := by
  unfold Chunk.kind ChunkKind.ofId leastPayload
  split <;> first | (rename_i h; rw [h]; rfl) | skip
  split <;> first | rfl | contradiction

/-- A chunk has the payload that it needs exactly if none of its numbers is cut short. -/
theorem shortRead?_fields (c : Chunk) :
    shortRead? c.payload.length 0 c.kind.fields = none ↔ leastPayload c.id ≤ c.payload.length := by
  rw [shortRead?_eq_none (Nat.zero_le _), span_fields, Nat.zero_add]

/-! ### Flaws -/

/-- The length of its payload that the chunk at the start of `bytes` announces. -/
def announced (bytes : List UInt8) : Nat := littleEndian ((bytes.drop 2).take 4)

/-- What is wrong with the bytes that stand at `offset` of an image, with the error that tells
which read does not find its bytes, where, and how many there are. -/
inductive Flaw (offset : Nat) (bytes : List UInt8) : Error → Prop where
  /-- The image ends inside a chunk: in its identifier, its length or its payload. -/
  | torn {start width : Nat} (hne : bytes ≠ [])
      (h : shortRead? bytes.length 0 [2, 4, announced bytes] = some (start, width)) :
      Flaw offset bytes (.truncated .uefImage (offset + start) width (bytes.length - start))
  /-- A chunk is all there, but its payload ends inside one of its numbers. -/
  | scant {c : Chunk} {rest : List UInt8} {start width : Nat} (hbytes : bytes = c.encode ++ rest)
      (hshort : c.payload.length < 0x100000000)
      (h : shortRead? c.payload.length 0 c.kind.fields = some (start, width)) :
      Flaw offset bytes (.truncated .uefChunk start width (c.payload.length - start))

/-- Bytes that hold a chunk begin with its encoding. -/
theorem exists_encode {bytes : List UInt8}
    (h : shortRead? bytes.length 0 [2, 4, announced bytes] = none) :
    ∃ c : Chunk, ∃ rest, bytes = c.encode ++ rest ∧ c.payload.length < 0x100000000 := by
  have hlength : 0 + (2 + (4 + (announced bytes + 0))) ≤ bytes.length :=
    (shortRead?_eq_none (Nat.zero_le _)).mp h
  -- the digits of what has been read are the bytes that it was read from
  obtain ⟨hidlt, hidbytes⟩ := littleEndian_take 2 (show 2 ≤ bytes.length by omega)
  obtain ⟨hsizelt, hsizebytes⟩ : announced bytes < Nat.pow 256 4 ∧
      littleEndianBytes 4 (announced bytes) = (bytes.drop 2).take 4 := by
    refine littleEndian_take 4 ?_
    rw [List.length_drop]
    omega
  have hpayload : ((bytes.drop 6).take (announced bytes)).length = announced bytes := by
    rw [List.length_take, List.length_drop]
    omega
  refine ⟨⟨UInt16.ofNat (littleEndian (bytes.take 2)), (bytes.drop 6).take (announced bytes)⟩,
    (bytes.drop 6).drop (announced bytes), ?_, ?_⟩
  · have hnat : (UInt16.ofNat (littleEndian (bytes.take 2))).toNat = littleEndian (bytes.take 2) :=
      UInt16.toNat_ofNat_of_lt' hidlt
    rw [Chunk.encode, hnat, hpayload, hidbytes, hsizebytes, List.append_assoc,
      List.take_append_drop, List.append_assoc]
    have hsix : bytes.drop 6 = (bytes.drop 2).drop 4 := by rw [List.drop_drop]
    rw [hsix, List.take_append_drop, List.take_append_drop]
  · show ((bytes.drop 6).take (announced bytes)).length < _
    rw [hpayload]
    exact hsizelt

/-- Every image is whole chunks, and after them either nothing or a flaw. -/
theorem exists_chunks (offset : Nat) (bytes : List UInt8) :
    ∃ chunks : List Chunk, ∃ tail, bytes = chunks.flatMap Chunk.encode ++ tail ∧
      (∀ c ∈ chunks, c.Whole) ∧
      (tail = [] ∨ ∃ e, Flaw (offset + (chunks.flatMap Chunk.encode).length) tail e) := by
  cases hread : shortRead? bytes.length 0 [2, 4, announced bytes] with
  | some read =>
    refine ⟨[], bytes, rfl, nofun, ?_⟩
    by_cases hne : bytes = []
    · exact Or.inl hne
    · exact Or.inr ⟨_, .torn hne hread⟩
  | none =>
    obtain ⟨c, rest, hbytes, hshort⟩ := exists_encode hread
    cases hfields : shortRead? c.payload.length 0 c.kind.fields with
    | some read => exact ⟨[], bytes, rfl, nofun, Or.inr ⟨_, .scant hbytes hshort hfields⟩⟩
    | none =>
      have hlength : rest.length < bytes.length := by
        rw [hbytes, List.length_append, Chunk.length_encode]
        omega
      obtain ⟨chunks, tail, hrest, hwhole, htail⟩ := exists_chunks (offset + c.encode.length) rest
      refine ⟨c :: chunks, tail, ?_, List.forall_mem_cons.mpr ⟨?_, hwhole⟩, ?_⟩
      · rw [List.flatMap_cons, List.append_assoc, ← hrest]
        exact hbytes
      · exact ⟨hshort, (shortRead?_fields c).mp hfields⟩
      · rw [List.flatMap_cons, List.length_append, ← Nat.add_assoc]
        exact htail
termination_by bytes.length

/-! ### Whole chunks play -/

/-- A beat that does not fail. -/
def Plays (beat : Beat) : Prop := ∃ delay, beat.delay = .ok delay

theorem plays_sound (carrier : Bool) (calls : List Signal) (delay : Cycles) :
    Plays (.sound carrier calls delay) := ⟨_, rfl⟩

/-- A single beat that sounds. -/
theorem plays_singleton {carrier : Bool} {calls : List Signal} {delay : Cycles} :
    ∀ beat ∈ [Beat.sound carrier calls delay], Plays beat := by
  intro beat hbeat
  rw [List.mem_singleton.mp hbeat]
  exact plays_sound ..

theorem plays_standardData (t : Tuning) (payload : List UInt8) :
    ∀ beat ∈ Score.standardData t payload, Plays beat := by
  unfold Score.standardData
  split
  · exact plays_singleton
  · intro beat hbeat
    obtain ⟨b, -, hbeat⟩ := List.mem_flatMap.mp hbeat
    simp only [Score.standardFrame, Score.bits, List.mem_append, List.mem_cons, List.mem_map,
      List.not_mem_nil, or_false] at hbeat
    rcases hbeat with (rfl | ⟨_, -, rfl⟩) | rfl <;> exact plays_sound ..

theorem plays_definedFrame (t : Tuning) (f : Framing) (b : UInt8) :
    ∀ beat ∈ Score.definedFrame t f b, Plays beat := by
  intro beat hbeat
  simp only [Score.definedFrame, Score.bits, List.mem_append, List.mem_cons, List.mem_map,
    List.mem_replicate, List.not_mem_nil, or_false] at hbeat
  rcases hbeat with (((rfl | ⟨_, -, rfl⟩) | ⟨_, -, rfl⟩) | ⟨-, rfl⟩) | rfl <;>
    exact plays_sound ..

theorem plays_carrierWithDummy (t : Tuning) (a b c d : UInt8) (more : List UInt8) :
    ∀ beat ∈ Score.carrierWithDummy t (a :: b :: c :: d :: more), Plays beat := by
  intro beat hbeat
  simp only [Score.carrierWithDummy, List.mem_append, List.mem_cons, List.mem_map,
    List.not_mem_nil, or_false] at hbeat
  rcases hbeat with (rfl | ⟨_, -, rfl⟩) | rfl <;> exact plays_sound ..

/-- No beat of a chunk fails that has the payload it needs. -/
theorem plays_chunk (t : Tuning) {c : Chunk} (h : span c.kind.fields ≤ c.payload.length) :
    ∀ beat ∈ Score.chunk t c, Plays beat := by
  unfold Score.chunk
  cases hk : c.kind with
  | implicitData => exact plays_standardData t c.payload
  | origin | securityCycles | phaseChange | unknown => exact plays_singleton
  | definedData =>
    rw [hk] at h
    match hpayload : c.payload, h with
    | bits :: letter :: stopBits :: data, _ =>
      intro beat hbeat
      rcases List.mem_append.mp hbeat with hbeat | hbeat
      · obtain ⟨b, -, hbeat⟩ := List.mem_flatMap.mp hbeat
        exact plays_definedFrame t _ b beat hbeat
      · exact plays_singleton beat hbeat
  | carrier | integerGap =>
    rw [hk] at h
    match hpayload : c.payload, h with
    | a :: b :: more, _ => exact plays_singleton
  | carrierWithDummy =>
    rw [hk] at h
    match hpayload : c.payload, h with
    | a :: b :: c :: d :: more, _ => exact plays_carrierWithDummy t a b c d more
  | baseFrequency | floatGap =>
    rw [hk] at h
    match hpayload : c.payload, h with
    | a :: b :: c :: d :: more, _ => exact plays_singleton

theorem plays_score (clock : Clock) (base : Binary32) {chunks : List Chunk}
    (h : ∀ c ∈ chunks, c.Whole) : ∀ beat ∈ score clock base chunks, Plays beat := by
  induction chunks generalizing base with
  | nil => exact nofun
  | cons c chunks ih =>
    obtain ⟨hc, hchunks⟩ := List.forall_mem_cons.mp h
    intro beat hbeat
    rcases List.mem_append.mp hbeat with hbeat | hbeat
    · exact plays_chunk _ (by rw [span_fields]; exact hc.filled) beat hbeat
    · exact ih _ hchunks beat hbeat

/-! ### Scant chunks fail -/

/-- A chunk whose payload is too short fails with its first beat, at the first number that is cut
short. -/
theorem chunk_scant (t : Tuning) {c : Chunk} {start width : Nat}
    (h : shortRead? c.payload.length 0 c.kind.fields = some (start, width)) :
    ∃ calls, Score.chunk t c = [.short calls start width c.payload] := by
  unfold Score.chunk
  cases hk : c.kind with
  | implicitData | origin | securityCycles | phaseChange | unknown =>
    rw [hk] at h
    simp [ChunkKind.fields, shortRead?] at h
  | definedData =>
    rw [hk] at h
    match hpayload : c.payload, h with
    | [], h | [_], h | [_, _], h =>
      obtain ⟨rfl, rfl⟩ := Prod.mk.inj (Option.some.inj h)
      exact ⟨_, rfl⟩
    | _ :: _ :: _ :: _, h => simp [ChunkKind.fields, shortRead?] at h
  | carrier | integerGap =>
    rw [hk] at h
    match hpayload : c.payload, h with
    | [], h | [_], h =>
      obtain ⟨rfl, rfl⟩ := Prod.mk.inj (Option.some.inj h)
      exact ⟨_, rfl⟩
    | _ :: _ :: _, h => simp [ChunkKind.fields, shortRead?] at h
  | carrierWithDummy =>
    rw [hk] at h
    match hpayload : c.payload, h with
    | [], h | [_], h | [_, _], h | [_, _, _], h =>
      obtain ⟨rfl, rfl⟩ := Prod.mk.inj (Option.some.inj h)
      exact ⟨_, rfl⟩
    | _ :: _ :: _ :: _ :: _, h => simp [ChunkKind.fields, shortRead?] at h
  | baseFrequency | floatGap =>
    rw [hk] at h
    match hpayload : c.payload, h with
    | [], h | [_], h | [_, _], h | [_, _, _], h =>
      obtain ⟨rfl, rfl⟩ := Prod.mk.inj (Option.some.inj h)
      exact ⟨_, rfl⟩
    | _ :: _ :: _ :: _ :: _, h => simp [ChunkKind.fields, shortRead?] at h

/-- A chunk that is cut off by the end of the image is not read. -/
theorem read_torn {c : Cursor} {start width : Nat}
    (h : shortRead? c.rest.length 0 [2, 4, announced c.rest] = some (start, width)) :
    (Chunk.read c).1
      = .error (.truncated c.region (c.offset + start) width (c.rest.length - start)) := by
  by_cases hid : 0 + 2 ≤ c.rest.length
  · have hread : Reader.number 2 c = _ := Reader.number_skip hid
    rw [shortRead?, if_pos hid] at h
    by_cases hsize : 0 + 2 + 4 ≤ c.rest.length
    · have hread' : Reader.number 4 (c.skip (0 + 2)) = _ := Reader.number_skip hsize
      rw [shortRead?, if_pos hsize] at h
      by_cases hpayload : 0 + 2 + 4 + announced c.rest ≤ c.rest.length
      · rw [shortRead?, if_pos hpayload] at h
        simp [shortRead?] at h
      · -- the payload is cut off
        rw [shortRead?, if_neg hpayload] at h
        obtain ⟨rfl, rfl⟩ := Prod.mk.inj (Option.some.inj h)
        have hcut := Reader.bytes_cut hsize (Nat.not_le.mp hpayload)
        refine (congrArg Prod.fst (Reader.bind_eq_of_ok hread)).trans ?_
        refine (congrArg Prod.fst (Reader.bind_eq_of_ok hread')).trans ?_
        exact congrArg Prod.fst (Reader.bind_eq_of_error hcut)
    · -- the length is cut off
      rw [shortRead?, if_neg hsize] at h
      obtain ⟨rfl, rfl⟩ := Prod.mk.inj (Option.some.inj h)
      have hcut := Reader.number_cut hid (Nat.not_le.mp hsize)
      refine (congrArg Prod.fst (Reader.bind_eq_of_ok hread)).trans ?_
      exact congrArg Prod.fst (Reader.bind_eq_of_error hcut)
  · -- the identifier is cut off
    rw [shortRead?, if_neg hid] at h
    obtain ⟨rfl, rfl⟩ := Prod.mk.inj (Option.some.inj h)
    have hcut : Reader.number 2 c = _ :=
      Reader.number_cut (Nat.zero_le _) (Nat.not_le.mp hid)
    exact congrArg Prod.fst (Reader.bind_eq_of_error hcut)

/-- A flaw is found out by the poll that comes to it. -/
theorem Flaw.delay_poll {t : Uef} {offset : Nat} {bytes : List UInt8} {e : Error}
    (h : Flaw offset bytes e) (hplaying : t.playing = none)
    (hcursor : t.cursor = ⟨.uefImage, offset, bytes⟩) : t.poll.delay = .error e := by
  have hend : bytes ≠ [] → t.cursor.atEnd = false := by
    intro hne
    rw [hcursor]
    simpa [Cursor.atEnd] using hne
  cases h with
  | torn hne h =>
    have hread := read_torn (c := ⟨.uefImage, offset, bytes⟩) h
    unfold poll
    rw [hplaying, hend hne, hcursor]
    simp only [Bool.false_eq_true, ↓reduceIte]
    cases hresult : Chunk.read ⟨.uefImage, offset, bytes⟩ with
    | mk result cursor =>
      rw [hresult] at hread
      cases hread
      rfl
  | @scant c rest start width hbytes hshort h =>
    obtain ⟨calls, hscore⟩ := chunk_scant t.tuning h
    rw [score_begin] at hscore
    have hbeat : (Stretch.begin t.tuning c).beat = .short calls start width c.payload :=
      (List.cons.inj hscore).1
    have hread := c.read_encode .uefImage offset rest hshort
    rw [← hbytes, ← hcursor] at hread
    have hne : bytes ≠ [] := by
      rw [hbytes]
      exact List.append_ne_nil_of_left_ne_nil c.encode_ne_nil _
    unfold poll
    rw [hplaying, hend hne, hread]
    exact congrArg Beat.delay hbeat

/-! ### Polls in a row -/

theorem poll_beat_mem {t : Uef} {m n : Nat} (h : m < n) :
    (t.afterPolls m).poll.beat ∈ t.beats n := by
  induction n generalizing t m with
  | zero => exact absurd h (Nat.not_lt_zero m)
  | succ n ih =>
    cases m with
    | zero => exact List.mem_cons_self
    | succ m => exact List.mem_cons_of_mem _ (ih (Nat.lt_of_succ_lt_succ h))

/-- Whole chunks are played in full, whatever stands after them. -/
theorem Reaches.played {t : Uef} {chunks : List Chunk} {stop : Cursor} {n : Nat}
    (h : t.Reaches chunks stop) (hn : (upcoming t chunks).length = n) :
    t.beats n = upcoming t chunks ∧ (t.afterPolls n).playing = none ∧
      (t.afterPolls n).cursor = stop := by
  induction n generalizing t chunks with
  | zero =>
    have hnil := List.eq_nil_of_length_eq_zero hn
    obtain ⟨hplaying, -, hcursor⟩ := h.of_upcoming_nil hnil
    exact ⟨hnil.symm, hplaying, hcursor⟩
  | succ n ih =>
    have hne : upcoming t chunks ≠ [] := by
      intro hnil
      rw [hnil] at hn
      exact absurd hn (Nat.succ_ne_zero n).symm
    obtain ⟨chunks', h', hcons⟩ := h.poll hne
    rw [hcons, List.length_cons] at hn
    obtain ⟨hbeats, hplaying, hcursor⟩ := ih h' (Nat.succ.inj hn)
    refine ⟨?_, hplaying, hcursor⟩
    rw [hcons, ← hbeats]
    rfl

/-- The poll `n` of a tape is the first to fail, and fails with `e`. -/
structure FirstError (t : Uef) (n : Nat) (e : Error) : Prop where
  earlier : ∀ m < n, Plays (t.afterPolls m).poll.beat
  fails : (t.afterPolls n).poll.delay = .error e

theorem FirstError.not_plays {t : Uef} {n : Nat} {e : Error} (h : t.FirstError n e) :
    ¬ Plays (t.afterPolls n).poll.beat := by
  rintro ⟨delay, hdelay⟩
  have hfails : (t.afterPolls n).poll.beat.delay = .error e := h.fails
  rw [hfails] at hdelay
  simp at hdelay

theorem FirstError.unique {t : Uef} {n n' : Nat} {e e' : Error} (h : t.FirstError n e)
    (h' : t.FirstError n' e') : n = n' ∧ e = e' := by
  have hle {n n' : Nat} {e e' : Error} (h : t.FirstError n e) (h' : t.FirstError n' e') :
      n ≤ n' := by
    exact Nat.not_lt.mp fun hlt => h'.not_plays (h.earlier n' hlt)
  obtain rfl : n = n' := Nat.le_antisymm (hle h h') (hle h' h)
  exact ⟨rfl, Except.error.inj (h.fails.symm.trans h'.fails)⟩

/-- An image of whole chunks never fails: its beats play, and so do the idle ones after them. -/
theorem plays_of_whole {image : List UInt8} (clock : Clock) {chunks : List Chunk}
    (himage : image.drop headerLength = chunks.flatMap Chunk.encode)
    (hwhole : ∀ c ∈ chunks, c.Whole) (n : Nat) :
    Plays ((ofImage image clock).afterPolls n).poll.beat := by
  have hholds : (ofImage image clock).Holds chunks := ⟨himage, fun c hc => (hwhole c hc).short⟩
  have hmem := poll_beat_mem (t := ofImage image clock) (Nat.lt_succ_self n)
  rw [beats_of_holds hholds] at hmem
  rcases List.mem_append.mp hmem with hmem | hmem
  · exact plays_score clock defaultBase hwhole _ (List.mem_of_mem_take hmem)
  · rw [(List.mem_replicate.mp hmem).2]
    exact ⟨idleDelay, rfl⟩

/-- An image is whole chunks, which are played in full, and perhaps a flaw after them, which is
found out by the next poll. -/
theorem playable_cases (image : List UInt8) (clock : Clock) :
    ∃ chunks : List Chunk, ∃ tail,
      image.drop headerLength = chunks.flatMap Chunk.encode ++ tail ∧ (∀ c ∈ chunks, c.Whole) ∧
      let tape := ofImage image clock
      let n := (score clock defaultBase chunks).length
      tape.beats n = score clock defaultBase chunks ∧
        (∀ m < n, Plays (tape.afterPolls m).poll.beat) ∧
        (tail = [] ∧ (tape.afterPolls n).isFinished = true ∨
          ∃ e, Flaw (headerLength + (chunks.flatMap Chunk.encode).length) tail e ∧
            tape.FirstError n e) := by
  obtain ⟨chunks, tail, himage, hwhole, htail⟩ :=
    exists_chunks headerLength (image.drop headerLength)
  refine ⟨chunks, tail, himage, hwhole, ?_⟩
  let tape := ofImage image clock
  let stop : Cursor := ⟨.uefImage, headerLength + (chunks.flatMap Chunk.encode).length, tail⟩
  have hreaches : tape.Reaches chunks stop := ⟨rfl, rfl, himage, fun c hc => (hwhole c hc).short⟩
  have hscore : upcoming tape chunks = score clock defaultBase chunks := rfl
  obtain ⟨hbeats, hplaying, hcursor⟩ := hreaches.played (congrArg List.length hscore)
  rw [hscore] at hbeats
  have hearlier : ∀ m < (score clock defaultBase chunks).length,
      Plays (tape.afterPolls m).poll.beat := by
    intro m hm
    have hmem := poll_beat_mem (t := tape) hm
    rw [hbeats] at hmem
    exact plays_score clock defaultBase hwhole _ hmem
  refine ⟨hbeats, hearlier, ?_⟩
  rcases htail with rfl | ⟨e, hflaw⟩
  · left
    refine ⟨rfl, ?_⟩
    show (Option.isNone _ && Cursor.atEnd _) = true
    rw [hplaying, hcursor]
    rfl
  · exact Or.inr ⟨e, hflaw, hearlier, hflaw.delay_poll hplaying hcursor⟩

/-- **A tape plays to its end exactly if it is whole chunks, and fails first at the first flaw
otherwise.**  Polling an image that has been opened comes to its end or to a first error.  There is
never an error exactly if the bytes after the header are whole chunks; and a first error comes when
the whole chunks before the flaw have been played in full, and tells of that flaw. -/
theorem playable_iff {image : List UInt8} {clock : Clock} {notice : Notice} {tape : Uef}
    (h : load image clock = .ok (notice, tape)) :
    (∃ n, (∀ m < n, Plays (tape.afterPolls m).poll.beat) ∧
      ((tape.afterPolls n).isFinished = true ∨ ∃ e, tape.FirstError n e)) ∧
      ((∀ n, Plays (tape.afterPolls n).poll.beat) ↔
        ∃ chunks : List Chunk, image.drop headerLength = chunks.flatMap Chunk.encode ∧
          ∀ c ∈ chunks, c.Whole) ∧
      ∀ n e, tape.FirstError n e →
        ∃ chunks : List Chunk, ∃ tail,
          image.drop headerLength = chunks.flatMap Chunk.encode ++ tail ∧
          (∀ c ∈ chunks, c.Whole) ∧ tape.beats n = score clock defaultBase chunks ∧
          Flaw (headerLength + (chunks.flatMap Chunk.encode).length) tail e := by
  obtain rfl := eq_ofImage_of_load h
  obtain ⟨chunks, tail, himage, hwhole, hbeats, hearlier, hend⟩ := playable_cases image clock
  refine ⟨⟨_, hearlier, ?_⟩, ⟨fun hplays => ?_, ?_⟩, fun n e hfirst => ?_⟩
  · rcases hend with ⟨-, hfinished⟩ | ⟨e, -, hfirst⟩
    · exact Or.inl hfinished
    · exact Or.inr ⟨e, hfirst⟩
  · rcases hend with ⟨rfl, -⟩ | ⟨e, -, hfirst⟩
    · exact ⟨chunks, himage.trans (List.append_nil _), hwhole⟩
    · exact absurd (hplays _) hfirst.not_plays
  · rintro ⟨chunks, himage, hwhole⟩
    exact plays_of_whole clock himage hwhole
  · rcases hend with ⟨rfl, -⟩ | ⟨e', hflaw, hfirst'⟩
    · rw [List.append_nil] at himage
      exact absurd (plays_of_whole clock himage hwhole n) hfirst.not_plays
    · obtain ⟨rfl, rfl⟩ := hfirst.unique hfirst'
      exact ⟨chunks, tail, himage, hwhole, hbeats, hflaw⟩

/-- A carrier, and then a gap of one byte where two are needed: the poll after the carrier fails. -/
theorem playable_iff_scant :
    let image := encode 10 [⟨0x0110, [1, 0]⟩, ⟨0x0112, [5]⟩]
    let e : Error := .truncated .uefChunk 0 2 1
    ∃ tape, load image .standard = .ok (.version 0 10, tape) ∧ tape.FirstError 1 e ∧
      ∃ chunks : List Chunk, ∃ tail,
        image.drop headerLength = chunks.flatMap Chunk.encode ++ tail ∧
        (∀ c ∈ chunks, c.Whole) ∧ tape.beats 1 = score .standard defaultBase chunks ∧
        Flaw (headerLength + (chunks.flatMap Chunk.encode).length) tail e := by
  intro image e
  have hload : load image .standard = .ok (.version 0 10, ofImage image .standard) := rfl
  have hfirst : (ofImage image .standard).FirstError 1 e := by
    refine ⟨fun m hm => ?_, rfl⟩
    rw [Nat.lt_one_iff.mp hm]
    exact ⟨_, rfl⟩
  exact ⟨_, hload, hfirst, (playable_iff hload).2.2 1 e hfirst⟩

end Cassette.Tape.Uef
