import Cassette.Proofs.Uef.Lockstep

/-!
# The registers of a decoder and a UEF tape

Between two polls the registers of a decoder read the image of a tape at its position, and hold
what is left of the chunk in hand.  Every poll comes to its end and keeps it so, whatever fails
meanwhile; and going back leaves nothing of what the registers held.

## Main definitions

* `Registers.Stands` — the registers stand for a tape.

## Main results

* `Stands.poll` — the poll of the decoder is that of the tape.
* `Stands.rewind_eq` — a decoder that goes back is one that begins.
* `stands_load` — a decoder opens what a tape opens.
-/

namespace Cassette.Tape.Uef.Registers

section

variable {r : Registers} {id : UInt16} {payload : ByteStream}

theorem Holds.isSome_state {playing : Playing} (h : r.Holds id payload playing) :
    r.state.isSome = true := by
  cases playing with
  | standardFrame b cells rest =>
    obtain ⟨-, -, state, -, hstate, -⟩ := h
    simp [hstate]
  | nextFrame f rest =>
    obtain ⟨-, -, -, hstate⟩ := h
    simp [hstate]
  | definedFrame f b cells rest =>
    obtain ⟨-, -, -, state, -, -, hstate, -⟩ := h
    simp [hstate]
  | dummyFrame cells after =>
    obtain ⟨-, -, state, -, -, hstate, -⟩ := h
    simp [hstate]

/-- What the registers hold of a chunk is not where the chunk is kept. -/
theorem Holds.with_chunk {playing : Playing} (h : r.Holds id payload playing)
    (chunk : Option (UInt16 × ByteStream)) :
    ({ r with chunk } : Registers).Holds id payload playing := by
  cases playing with
  | standardFrame b cells rest =>
    obtain ⟨hkind, hrest, state, hlt, hstate, hframes, hcells⟩ := h
    exact ⟨hkind, hrest, state, hlt, hstate, ⟨hframes.byte, hframes.fits, hframes.bits⟩, hcells⟩
  | nextFrame f rest =>
    obtain ⟨hkind, hrest, hformats, hstate⟩ := h
    exact ⟨hkind, hrest, ⟨hformats.dataBits, hformats.parity, hformats.stopBits⟩, hstate⟩
  | definedFrame f b cells rest =>
    obtain ⟨hkind, hrest, hformats, state, hle, hpos, hstate, hframes, hcells⟩ := h
    exact ⟨hkind, hrest, ⟨hformats.dataBits, hformats.parity, hformats.stopBits⟩, state, hle, hpos,
      hstate, ⟨hframes.byte, hframes.fits, hframes.bits⟩, hcells⟩
  | dummyFrame cells after => exact h

end

/-! ### Between polls -/

/-- The registers read the image of a tape, at its position and in its tuning. -/
structure Reads (r : Registers) (t : Uef) : Prop where
  region : r.stream.region = .uefImage
  image : r.stream.bytes = t.image
  /-- The header is there. -/
  header : headerLength ≤ t.image.length
  inRange : r.stream.InRange
  cursor : r.stream.cursor = t.cursor
  clock : r.clock = t.clock
  base : r.base = t.base

/-- The registers stand for a tape: they read its image and hold what is left of the chunk in
hand. -/
structure Stands (r : Registers) (t : Uef) : Prop extends r.Reads t where
  inHand : match t.playing with
    | none => r.chunk = none
    | some playing =>
      ∃ id payload, r.chunk = some (id, payload) ∧ payload.InRange ∧ r.Holds id payload playing

section

variable {r : Registers} {t : Uef}

theorem Reads.tuning (h : r.Reads t) : r.tuning = t.tuning := by
  unfold Registers.tuning Uef.tuning
  rw [h.clock, h.base]

/-- A unit of work of a chunk that has been taken in hand. -/
theorem Reads.perform (h : r.Reads t) (hchunk : r.chunk = none) (told : List Signal) {id : UInt16}
    {payload : ByteStream} {u : Stretch} (hdoes : r.Does id (r.play id payload) u) :
    Mirrors Stands (r.perform told id payload) (t.perform told u) := by
  obtain ⟨turn, hturn, hrenders⟩ := hdoes
  obtain ⟨hstream, hclock, hkept⟩ := hrenders.keeps
  have hreads : turn.registers.Reads (t.perform told u).tape :=
    ⟨by rw [hstream]; exact h.region, by rw [hstream]; exact h.image, h.header,
      by rw [hstream]; exact h.inRange, by rw [hstream]; exact h.cursor,
      by rw [hclock]; exact h.clock, hrenders.base⟩
  have hleft := hrenders.left
  have hsignals : told ++ lowered id ++ turn.signals = told ++ u.signals := by
    rw [List.append_assoc, hrenders.signals]
  unfold Registers.perform Uef.perform
  rw [← hrenders.delay]
  simp only [hturn, bind, Except.bind, hsignals]
  cases hdelay : turn.delay with
  | error e =>
    -- the chunk was taken out of its place before, so it is dropped
    rw [hdelay] at hleft
    have hleft : u.playing = none := hleft
    refine ⟨_, rfl, rfl, rfl, hreads, ?_⟩
    simp only [hleft]
    exact hkept.trans hchunk
  | ok delay =>
    rw [hdelay] at hleft
    -- the chunk is put back exactly if its state says that it goes on
    have hleft : turn.registers.Left id turn.payload u.playing := hleft
    refine ⟨_, rfl, rfl, rfl, ⟨hreads.region, hreads.image, hreads.header, hreads.inRange,
      hreads.cursor, hreads.clock, hreads.base⟩, ?_⟩
    cases hplaying : u.playing with
    | none =>
      rw [hplaying] at hleft
      have hleft : turn.registers.state = none := hleft
      simp [hleft]
    | some playing =>
      rw [hplaying] at hleft
      obtain ⟨hrange, hholds⟩ := hleft
      simp only [hholds.isSome_state, if_true]
      exact ⟨id, turn.payload, rfl, hrange, hholds.with_chunk _⟩

theorem follows_readChunk : StreamReader.Follows readChunk Chunk.read :=
  (StreamReader.follows_number 2).bind fun _ =>
    (StreamReader.follows_number 4).bind fun length =>
      (StreamReader.follows_bytes length).bind fun _ => .pure _

/-- A poll of the decoder is one of the tape. -/
theorem Stands.poll (h : r.Stands t) : Mirrors Stands r.poll t.poll := by
  have hinHand := h.inHand
  unfold Registers.poll Uef.poll
  cases hplaying : t.playing with
  | some playing =>
    rw [hplaying] at hinHand
    obtain ⟨id, payload, hchunk, hrange, hholds⟩ := hinHand
    rw [hchunk]
    have hreads : ({ r with chunk := none } : Registers).Reads t :=
      ⟨h.region, h.image, h.header, h.inRange, h.cursor, h.clock, h.base⟩
    have hdoes := does_resume hrange (hholds.with_chunk none)
    rw [hreads.tuning] at hdoes
    exact hreads.perform rfl [] hdoes
  | none =>
    rw [hplaying] at hinHand
    have hchunk : r.chunk = none := hinHand
    rw [hchunk, ← h.cursor, ByteStream.atEnd_cursor]
    dsimp only
    by_cases hend : r.stream.atEnd = true
    · rw [if_pos hend, if_pos hend]
      exact ⟨_, rfl, rfl, rfl, h⟩
    · rw [if_neg hend, if_neg hend]
      obtain ⟨result, stream, hread, hcursor, hmoved⟩ := follows_readChunk r.stream h.inRange
      have hreads : ({ r with chunk := none, state := none, stream } : Registers).Reads
          { t with cursor := stream.cursor, playing := none } :=
        ⟨hmoved.region.trans h.region, hmoved.bytes.trans h.image, h.header, hmoved.inRange, rfl,
          h.clock, h.base⟩
      rw [hcursor]
      simp only [hread, bind, Except.bind]
      cases result with
      | error e =>
        -- the position stays where the read gave up, and no chunk is in hand
        exact ⟨_, rfl, rfl, rfl, hreads, rfl⟩
      | ok c =>
        have hdoes := does_begin (r := { r with chunk := none, state := none, stream }) rfl c
        rw [hreads.tuning] at hdoes
        exact hreads.perform rfl _ hdoes

theorem Stands.isFinished (h : r.Stands t) : r.isFinished = t.isFinished := by
  have hinHand := h.inHand
  unfold Registers.isFinished Uef.isFinished
  rw [← h.cursor, ByteStream.atEnd_cursor]
  cases hplaying : t.playing with
  | none =>
    rw [hplaying] at hinHand
    have hchunk : r.chunk = none := hinHand
    rw [hchunk]
    rfl
  | some playing =>
    rw [hplaying] at hinHand
    obtain ⟨id, payload, hchunk, -⟩ := hinHand
    rw [hchunk]
    rfl

/-! ### The start of an image -/

/-- Going back leaves nothing of what the registers held: only the image and the clock matter. -/
theorem rewind_congr {r r' : Registers} (hregion : r.stream.region = r'.stream.region)
    (hbytes : r.stream.bytes = r'.stream.bytes) (hclock : r.clock = r'.clock) :
    r.rewind = r'.rewind := by
  have hstream : r.stream.seek headerLength = r'.stream.seek headerLength := by
    unfold ByteStream.seek
    rw [hregion, hbytes]
  unfold Registers.rewind
  rw [hstream, hclock]

theorem stands_rewind (hregion : r.stream.region = .uefImage)
    (hheader : headerLength ≤ r.stream.bytes.length) :
    r.rewind.Stands (.ofImage r.stream.bytes r.clock) := by
  refine ⟨⟨hregion, rfl, hheader, Nat.min_le_right .., ?_, rfl, rfl⟩, rfl⟩
  exact (ByteStream.cursor_seek _ _ hheader).trans (by rw [hregion]; rfl)

theorem Stands.rewind (h : r.Stands t) : r.rewind.Stands t.rewind := by
  have hstands := stands_rewind h.region (h.image ▸ h.header)
  rwa [h.image, h.clock] at hstands

/-- Decoders that stand for tapes with the same start go back to the same registers. -/
theorem Stands.rewind_eq {r' : Registers} {t' : Uef} (h : r.Stands t) (h' : r'.Stands t')
    (hsame : t.rewind = t'.rewind) : r.rewind = r'.rewind := by
  have himage : t.rewind.image = t'.rewind.image := congrArg Uef.image hsame
  have hclock : t.rewind.clock = t'.rewind.clock := congrArg Uef.clock hsame
  exact rewind_congr (h.region.trans h'.region.symm)
    (h.image.trans (himage.trans h'.image.symm)) (h.clock.trans (hclock.trans h'.clock.symm))

end

theorem follows_readVersion : StreamReader.Follows readVersion readHeader.version :=
  StreamReader.follows_byte.bind fun _ => StreamReader.follows_byte.bind fun major => by
    by_cases hmajor : major = 0
    · simp only [hmajor, if_true]
      exact .pure _
    · simp only [hmajor, if_false]
      exact StreamReader.follows_fail _

/-- A decoder opens what a tape opens, and is then where it goes back to. -/
theorem stands_load (image : List UInt8) (clock : Clock) :
    match Uef.load image clock with
    | .error e => load image clock = .ok (.error e)
    | .ok (notice, t) =>
      ∃ r, load image clock = .ok (.ok (notice, r)) ∧ r.Stands t ∧ r.rewind = r := by
  unfold Uef.load load readHeader
  by_cases hmagic : magic.isPrefixOf image = true
  · have hlength : magic.length ≤ image.length :=
      (List.isPrefixOf_iff_prefix.mp hmagic).length_le
    obtain ⟨result, stream, hread, hcursor, hmoved⟩ :=
      follows_readVersion _ (ByteStream.moved_seek (.start .uefImage image) magic.length).inRange
    rw [ByteStream.cursor_seek _ _ hlength] at hcursor
    have hversion : readHeader.version (.seek .uefImage image magic.length)
        = (result, stream.cursor) := hcursor
    rw [hmagic, if_pos rfl, hversion]
    simp only [hread, bind, Except.bind]
    cases result with
    | error e => rfl
    | ok minor =>
      have hheader : headerLength ≤ image.length := by
        obtain ⟨_, c, hminor, hmajor⟩ := Reader.bind_ok hversion
        obtain ⟨_, c', hmajor, -⟩ := Reader.bind_ok hmajor
        have hminor := Reader.byte_ok hminor
        have hmajor := Reader.byte_ok hmajor
        have htwo : magic.length + 2 = headerLength := rfl
        simp only [Cursor.seek, List.length_drop] at hminor
        omega
      have hregion : stream.region = .uefImage := hmoved.region
      have hbytes : stream.bytes = image := hmoved.bytes
      have hstands := stands_rewind (r := fresh stream clock) hregion (hbytes ▸ hheader)
      refine ⟨_, rfl, ?_, rewind_congr rfl rfl rfl⟩
      have hbytes' : (fresh stream clock).stream.bytes = image := hbytes
      rwa [hbytes'] at hstands
  · rw [Bool.not_eq_true] at hmagic
    rw [hmagic]
    rfl

end Cassette.Tape.Uef.Registers
