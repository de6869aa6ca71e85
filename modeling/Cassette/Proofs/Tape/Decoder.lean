import Cassette.Proofs.Uef.Stands
import Cassette.Tape.Basic

/-!
# Decoders

A decoder of either format in its registers.  That of a tapefile has nothing but the position in
its image.  A decoder that is opened on an image stands for the tape that the image is, and polls
and going back keep it so.

## Main definitions

* `Tapefile.Registers` — a decoder of tapefiles.
* `Decoder` and its operations `poll`, `rewind`, `isFinished`, `base?`, `load`.
* `Decoder.Stands` — a decoder stands for a tape.

## Main results

* `Decoder.Stands.poll` — the poll of a decoder is that of the tape.
* `Decoder.Stands.rewind_eq` — a decoder that goes back is one that begins.
* `Decoder.stands_load` — a decoder opens what a tape opens.
-/

namespace Cassette.Tape

/-! ### Tapefiles -/

namespace Tapefile

/-- The registers of a decoder. -/
structure Registers where
  stream : ByteStream
  clock : Clock

namespace Registers

/-- The registers of a new decoder, which is at the first byte. -/
def fresh (image : List UInt8) (clock : Clock) : Registers := ⟨.start .tapefile image, clock⟩

/-- The item at a position.  A pair that means nothing is passed over. -/
def readItem : StreamReader Item := do
  let b ← StreamReader.byte
  if b ≠ escape then return .byte b
  let e ← StreamReader.byte
  if e = 0x00 then return .carrierLost
  else if e = 0x04 then return .carrierPresent
  else if e = escape then return .byte e
  else StreamReader.fail (.unexpectedEscape e)

/-- Play the next item for a chip with the given control register. -/
def poll (control : UInt8) (r : Registers) : Except Crash (Played Registers) := do
  if r.stream.atEnd then
    return { signals := [], delay := .ok idleDelay, tape := r }
  match ← readItem r.stream with
  | (.ok item, stream) =>
    return { signals := item.signals control
             delay := .ok (item.time r.clock control)
             tape := { r with stream } }
  | (.error e, stream) => return { signals := [], delay := .error e, tape := { r with stream } }

/-- Back to the first byte. -/
def rewind (r : Registers) : Registers := { r with stream := r.stream.seek 0 }

/-- The whole image has been played. -/
def isFinished (r : Registers) : Bool := r.stream.atEnd

/-- The registers stand for a tape: they read its image at its position. -/
structure Stands (r : Registers) (t : Tapefile) : Prop where
  region : r.stream.region = .tapefile
  image : r.stream.bytes = t.image
  inRange : r.stream.InRange
  cursor : r.stream.cursor = t.cursor
  clock : r.clock = t.clock

variable {r r' : Registers} {t t' : Tapefile}

theorem stands_fresh (image : List UInt8) (clock : Clock) :
    (fresh image clock).Stands (.ofImage image clock) :=
  ⟨rfl, rfl, ByteStream.inRange_start .., rfl, rfl⟩

theorem follows_readItem : StreamReader.Follows readItem Item.read := by
  refine StreamReader.follows_byte.bind fun b => ?_
  by_cases hplain : b ≠ escape
  · simp only [if_pos hplain]
    exact .pure _
  · simp only [if_neg hplain]
    refine StreamReader.follows_byte.bind fun e => ?_
    split
    · exact .pure _
    split
    · exact .pure _
    split
    · exact .pure _
    · exact StreamReader.follows_fail _

theorem Stands.isFinished (h : r.Stands t) : r.isFinished = t.isFinished := by
  unfold Registers.isFinished Tapefile.isFinished
  rw [← h.cursor, ByteStream.atEnd_cursor]

/-- A poll of the decoder is one of the tape. -/
theorem Stands.poll (h : r.Stands t) (control : UInt8) :
    Mirrors Stands (r.poll control) (t.poll control) := by
  unfold Registers.poll Tapefile.poll
  rw [← h.cursor, ByteStream.atEnd_cursor]
  by_cases hend : r.stream.atEnd = true
  · rw [if_pos hend, if_pos hend]
    exact ⟨_, rfl, rfl, rfl, h⟩
  · rw [if_neg hend, if_neg hend]
    obtain ⟨result, stream, hread, hcursor, hmoved⟩ := follows_readItem r.stream h.inRange
    have hstands : ({ r with stream } : Registers).Stands ⟨t.image, r.clock, stream.cursor⟩ :=
      ⟨hmoved.region.trans h.region, hmoved.bytes.trans h.image, hmoved.inRange, rfl, rfl⟩
    rw [hcursor, ← h.clock]
    simp only [hread, bind, Except.bind]
    cases result with
    | error e => exact ⟨_, rfl, rfl, rfl, hstands⟩
    | ok item => exact ⟨_, rfl, rfl, rfl, hstands⟩

theorem Stands.rewind (h : r.Stands t) : r.rewind.Stands t.rewind := by
  refine ⟨h.region, h.image, Nat.min_le_right .., ?_, h.clock⟩
  refine (ByteStream.cursor_seek _ _ (Nat.zero_le _)).trans ?_
  rw [h.region, h.image]
  rfl

/-- Decoders that stand for tapes with the same start go back to the same registers. -/
theorem Stands.rewind_eq (h : r.Stands t) (h' : r'.Stands t') (hsame : t.rewind = t'.rewind) :
    r.rewind = r'.rewind := by
  have himage : t.rewind.image = t'.rewind.image := congrArg Tapefile.image hsame
  have hclock : t.rewind.clock = t'.rewind.clock := congrArg Tapefile.clock hsame
  have hbytes : r.stream.bytes = r'.stream.bytes :=
    h.image.trans (himage.trans h'.image.symm)
  have hclock : r.clock = r'.clock := h.clock.trans (hclock.trans h'.clock.symm)
  unfold Registers.rewind ByteStream.seek
  rw [h.region, h'.region, hbytes, hclock]

theorem rewind_fresh (image : List UInt8) (clock : Clock) :
    (fresh image clock).rewind = fresh image clock := by
  unfold Registers.rewind ByteStream.seek fresh ByteStream.start
  rw [Nat.zero_min]

end Registers

end Tapefile

/-! ### Either format -/

/-- A decoder of an image in either format. -/
inductive Decoder where
  | tapefile (r : Tapefile.Registers)
  | uef (r : Uef.Registers)

namespace Decoder

/-- Play the next unit of work for a chip with the given control register. -/
def poll (control : UInt8) : Decoder → Except Crash (Played Decoder)
  | .tapefile r => do return (← r.poll control).map .tapefile
  | .uef r => do return (← r.poll).map .uef

/-- Back to the start of the image. -/
def rewind : Decoder → Decoder
  | .tapefile r => .tapefile r.rewind
  | .uef r => .uef r.rewind

/-- The whole image has been played. -/
def isFinished : Decoder → Bool
  | .tapefile r => r.isFinished
  | .uef r => r.isFinished

/-- The base tone in force, for a format that has one. -/
def base? : Decoder → Option Binary32
  | .tapefile _ => none
  | .uef r => some r.base

/-- Recognise and open an image, with what is worth telling about it. -/
def load (data : List UInt8) (clock : Clock) : Except Crash (List Notice × Except Error Decoder) :=
  match unpack data with
  | (told, .error e) => return (told, .error e)
  | (told, .ok image) =>
    match detect? image with
    | none => return (told, .error .unknownFormat)
    | some .tapefile =>
      return (told ++ [.detected .tapefile image.length], .ok (.tapefile (.fresh image clock)))
    | some .uef => do
      match ← Uef.Registers.load image clock with
      | .error e => return (told ++ [.detected .uef image.length], .error e)
      | .ok (notice, r) => return (told ++ [.detected .uef image.length, notice], .ok (.uef r))

/-- A decoder stands for a tape of the same format. -/
def Stands : Decoder → Tape → Prop
  | .tapefile r, .tapefile t => r.Stands t
  | .uef r, .uef t => r.Stands t
  | _, _ => False

section

variable {d d' : Decoder} {t t' : Tape}

/-- A poll of the decoder is one of the tape. -/
theorem Stands.poll (h : d.Stands t) (control : UInt8) :
    Mirrors Stands (d.poll control) (t.poll control) := by
  match d, t, h with
  | .tapefile r, .tapefile t, h =>
    obtain ⟨p, hpoll, hsignals, hdelay, hstands⟩ := Tapefile.Registers.Stands.poll h control
    simp only [Decoder.poll, hpoll, bind, Except.bind]
    exact ⟨_, rfl, hsignals, hdelay, hstands⟩
  | .uef r, .uef t, h =>
    obtain ⟨p, hpoll, hsignals, hdelay, hstands⟩ := Uef.Registers.Stands.poll h
    simp only [Decoder.poll, hpoll, bind, Except.bind]
    exact ⟨_, rfl, hsignals, hdelay, hstands⟩

theorem Stands.rewind (h : d.Stands t) : d.rewind.Stands t.rewind := by
  match d, t, h with
  | .tapefile r, .tapefile t, h => exact Tapefile.Registers.Stands.rewind h
  | .uef r, .uef t, h => exact Uef.Registers.Stands.rewind h

/-- Decoders that stand for tapes with the same start go back to the same registers. -/
theorem Stands.rewind_eq (h : d.Stands t) (h' : d'.Stands t') (hsame : t.rewind = t'.rewind) :
    d.rewind = d'.rewind := by
  match d, t, h with
  | .tapefile r, .tapefile t, h =>
    match d', t', h' with
    | .tapefile r', .tapefile t', h' =>
      exact congrArg Decoder.tapefile
        (Tapefile.Registers.Stands.rewind_eq h h' (Tape.tapefile.inj hsame))
    | .uef r', .uef t', h' => exact Tape.noConfusion hsame
  | .uef r, .uef t, h =>
    match d', t', h' with
    | .tapefile r', .tapefile t', h' => exact Tape.noConfusion hsame
    | .uef r', .uef t', h' =>
      exact congrArg Decoder.uef
        (Uef.Registers.Stands.rewind_eq h h' (Tape.uef.inj hsame))

theorem Stands.isFinished (h : d.Stands t) : d.isFinished = t.isFinished := by
  match d, t, h with
  | .tapefile r, .tapefile t, h => exact Tapefile.Registers.Stands.isFinished h
  | .uef r, .uef t, h => exact Uef.Registers.Stands.isFinished h

theorem Stands.base? (h : d.Stands t) : d.base? = t.base? := by
  match d, t, h with
  | .tapefile r, .tapefile t, h => rfl
  | .uef r, .uef t, h => exact congrArg some h.base

end

/-- A decoder opens what a tape opens, and is then where it goes back to. -/
theorem stands_load (data : List UInt8) (clock : Clock) :
    match Tape.load data clock with
    | (told, .error e) => load data clock = .ok (told, .error e)
    | (told, .ok t) =>
      ∃ d, load data clock = .ok (told, .ok d) ∧ d.Stands t ∧ d.rewind = d := by
  unfold Tape.load load
  rcases unpack data with ⟨told, e | image⟩
  · rfl
  dsimp only
  cases detect? image with
  | none => rfl
  | some format =>
    cases format with
    | tapefile =>
      exact ⟨_, rfl, Tapefile.Registers.stands_fresh image clock,
        congrArg _ (Tapefile.Registers.rewind_fresh image clock)⟩
    | uef =>
      have hload := Uef.Registers.stands_load image clock
      unfold Tape.ofImage
      cases hopened : Uef.load image clock with
      | error e =>
        rw [hopened] at hload
        have hload : Uef.Registers.load image clock = .ok (.error e) := hload
        simp only [hload, bind, Except.bind]
        rfl
      | ok opened =>
        rw [hopened] at hload
        obtain ⟨r, hload, hstands, hrewind⟩ := hload
        simp only [hload, bind, Except.bind]
        exact ⟨_, rfl, hstands, congrArg _ hrewind⟩

end Decoder

end Cassette.Tape
