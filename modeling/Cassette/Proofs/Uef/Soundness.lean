import Cassette.Proofs.BitLoop.Words
import Cassette.Proofs.Uef.Stands

/-!
# Sound registers

What the registers of a decoder hold between two polls can be left over from a chunk that was
dropped in the middle: a cell count that no chunk in hand explains, the bits of another byte, the
format of another frame.  None of it can be the end of the program.  The streams stand within their
bytes, the loop within its buffer, and the cell count within the longest frame that three bytes can
ask for; and every unit of work, whatever it comes to, leaves the registers so.

## Main definitions

* `Safely` — a computation comes to its end with something of a kind.
* `longestFrame` — the cells of the longest frame.
* `Registers.Sound` — what the registers need for the next poll.

## Main results

* `Sound.play` — the next unit of a chunk.
* `Sound.poll`, `Sound.rewind` — the operations of a decoder.
* `sound_load` — a decoder that has been opened.
-/

namespace Cassette.Tape

/-! ### Computations that come to their end -/

/-- The computation is not the end of the program, and what it gives is of the kind `P`. -/
def Safely {α : Type} (P : α → Prop) (x : Except Crash α) : Prop := ∃ a, x = .ok a ∧ P a

section

variable {α β : Type} {P : α → Prop} {Q : β → Prop}

theorem safely_ok {a : α} (h : P a) : Safely P (.ok a) := ⟨a, rfl, h⟩

theorem Safely.bind {x : Except Crash α} {f : α → Except Crash β} (h : Safely P x)
    (hf : ∀ a, P a → Safely Q (f a)) : Safely Q (x >>= f) := by
  obtain ⟨a, rfl, ha⟩ := h
  exact hf a ha

/-- A read goes on with a stream in range, whether it was given what it wanted or not. -/
theorem StreamReader.Follows.safely {r : StreamReader α} {q : Reader α} (h : Follows r q)
    {s : ByteStream} (hs : s.InRange) {f : Except Error α × ByteStream → Except Crash β}
    (herror : ∀ e (s' : ByteStream), s'.InRange → Safely Q (f (.error e, s')))
    (hok : ∀ a (s' : ByteStream), s'.InRange → Safely Q (f (.ok a, s'))) :
    Safely Q (r s >>= f) := by
  obtain ⟨result, s', hread, -, hmoved⟩ := h s hs
  have hresult : Safely (fun out => out.2.InRange) (r s) := ⟨(result, s'), hread, hmoved.inRange⟩
  refine hresult.bind fun out hout => ?_
  cases out with
  | mk result s' =>
    cases result with
    | error e => exact herror e s' hout
    | ok a => exact hok a s' hout

end

namespace Uef

/-- The cells of the longest frame: a start, eight data bits, a parity bit and 255 stop bits. -/
def longestFrame : Nat := 265

/-- A loop over bits that the bytes have. -/
theorem safely_loopOver {bytes : Array UInt8} {bits : Nat} (h : bits ≤ 8 * bytes.size) :
    Safely (fun _ => True) (loopOver bytes bits) := by
  obtain ⟨loop, hloop, -⟩ := BitLoop.exists_round bytes h
  unfold loopOver
  rw [hloop]
  exact safely_ok trivial

namespace Registers

/-- The registers are ready for any poll. -/
structure Sound (r : Registers) : Prop where
  /-- The image has been read to one of its bytes or to its end. -/
  stream : r.stream.InRange
  /-- So has the chunk in hand. -/
  chunk : ∀ c ∈ r.chunk, c.2.InRange
  /-- The bit that comes next is one of the buffer. -/
  index : r.bits.position / 8 < r.bits.bytes.size
  /-- A byte has as many bits. -/
  dataBits : r.dataBits ≤ 8
  /-- The cell is one of some frame, or the end of it. -/
  state : ∀ state ∈ r.state, state ≤ longestFrame

/-- A unit of work leaves registers that are ready, and the chunk read to one of its bytes or to its
end. -/
structure SoundTurn (t : Turn) : Prop where
  registers : t.registers.Sound
  payload : t.payload.InRange

section

variable {r : Registers} {payload : ByteStream}

theorem Sound.with_state (h : r.Sound) {state : Nat} (hstate : state ≤ longestFrame) :
    ({ r with state := some state } : Registers).Sound :=
  ⟨h.stream, h.chunk, h.index, h.dataBits, fun _ hs => Option.some.inj hs ▸ hstate⟩

theorem Sound.without_state (h : r.Sound) : ({ r with state := none } : Registers).Sound :=
  ⟨h.stream, h.chunk, h.index, h.dataBits, nofun⟩

theorem Sound.with_bits (h : r.Sound) (bits : BitLoop) : ({ r with bits } : Registers).Sound :=
  ⟨h.stream, h.chunk, bits.position_div_lt, h.dataBits, h.state⟩

theorem Sound.with_format (h : r.Sound) {dataBits : Nat} (hbits : dataBits ≤ 8) (parity : Parity)
    (stopBits : UInt8) : ({ r with dataBits, parity, stopBits } : Registers).Sound :=
  ⟨h.stream, h.chunk, h.index, hbits, h.state⟩

theorem SoundTurn.telling {t : Turn} (h : SoundTurn t) (told : List Signal) :
    SoundTurn (t.telling told) := ⟨h.registers, h.payload⟩

/-- However many bits are asked for, a byte is taken up with eight of them at most. -/
theorem Sound.loadByte (h : r.Sound) (byte : UInt8) (bits : Nat) :
    Safely Sound (r.loadByte byte bits) := by
  have hbits : min bits 8 ≤ 8 := Nat.min_le_right ..
  obtain ⟨mask, hmask, -⟩ := maskBits_eq hbits
  have hmask : Safely (fun _ => True) (maskBits (min bits 8)) := ⟨mask, hmask, trivial⟩
  refine hmask.bind fun mask _ => (safely_loopOver hbits).bind fun bitLoop _ => ?_
  exact safely_ok ⟨h.stream, h.chunk, bitLoop.position_div_lt, h.dataBits, h.state⟩

/-- A cell before the end of the longest frame is not the last that can be counted. -/
theorem Sound.cell (h : r.Sound) {state : Nat} (hstate : state < longestFrame) (signal : Signal)
    (hpayload : payload.InRange) : Safely SoundTurn (r.cell state signal payload) := by
  have hlt : state + 1 ≤ 265 := hstate
  rw [cell_eq r (by omega)]
  exact safely_ok ⟨h.with_state hstate, hpayload⟩

theorem Sound.standardCell (h : r.Sound) (state : Nat) (hpayload : payload.InRange) :
    Safely SoundTurn (r.standardCell state payload) := by
  unfold Registers.standardCell
  by_cases hzero : state = 0
  · rw [if_pos hzero]
    exact safely_ok ⟨h.with_state (by decide), hpayload⟩
  rw [if_neg hzero]
  by_cases hdata : state ≤ 8
  · rw [if_pos hdata]
    have hlt : state < longestFrame := Nat.lt_of_le_of_lt hdata (by decide)
    exact (h.with_bits r.bits.next.2).cell hlt _ hpayload
  rw [if_neg hdata]
  by_cases hend : payload.atEnd = true
  · rw [if_pos hend]
    exact safely_ok ⟨h.without_state, hpayload⟩
  rw [if_neg hend]
  refine StreamReader.follows_byte.safely hpayload ?_ ?_
  · exact fun e payload hpayload => safely_ok ⟨h, hpayload⟩
  · exact fun byte payload hpayload => (h.loadByte byte 8).bind fun r hr =>
      safely_ok ⟨hr.with_state (by decide), hpayload⟩

theorem Sound.standardData (h : r.Sound) (hpayload : payload.InRange) :
    Safely SoundTurn (r.standardData payload) := by
  unfold Registers.standardData
  cases r.state with
  | some state => exact h.standardCell state hpayload
  | none =>
    by_cases hend : payload.atEnd = true
    · rw [if_pos hend]
      exact safely_ok ⟨h, hpayload⟩
    rw [if_neg hend]
    refine StreamReader.follows_byte.safely hpayload ?_ ?_
    · exact fun e payload hpayload => safely_ok ⟨h, hpayload⟩
    · exact fun byte payload hpayload => (h.loadByte byte 8).bind fun r hr =>
        hr.standardCell 0 hpayload

/-- No frame is longer than the longest. -/
theorem Sound.stopEnd_le (h : r.Sound) :
    1 + r.dataBits + (if r.parity = .none then 0 else 1) + r.stopBits.toNat ≤ longestFrame := by
  have hdata := h.dataBits
  have hstop : r.stopBits.toNat < 256 := r.stopBits.toNat_lt
  have hparity : (if r.parity = .none then 0 else 1) ≤ 1 := by split <;> decide
  change _ ≤ 265
  omega

theorem Sound.definedCell (h : r.Sound) (state : Nat) (hpayload : payload.InRange) :
    Safely SoundTurn (r.definedCell state payload) := by
  have hstop := h.stopEnd_le
  unfold Registers.definedCell
  dsimp only
  by_cases hzero : state = 0
  · rw [if_pos hzero]
    by_cases hend : payload.atEnd = true
    · rw [if_pos hend]
      exact safely_ok ⟨h.without_state, hpayload⟩
    rw [if_neg hend]
    refine StreamReader.follows_byte.safely hpayload ?_ ?_
    · exact fun e payload hpayload => safely_ok ⟨h, hpayload⟩
    · exact fun byte payload hpayload => (h.loadByte byte r.dataBits).bind fun r' hr' =>
        hr'.cell (hzero ▸ by decide) _ hpayload
  rw [if_neg hzero]
  -- whichever cell it is, it comes before the end of the last stop cell
  by_cases hdata : state < 1 + r.dataBits
  · rw [if_pos hdata]
    exact (h.with_bits r.bits.next.2).cell (by omega) _ hpayload
  rw [if_neg hdata]
  by_cases hparity : state < 1 + r.dataBits + if r.parity = .none then 0 else 1
  · rw [if_pos hparity]
    exact h.cell (by omega) _ hpayload
  rw [if_neg hparity]
  by_cases hcell : state < 1 + r.dataBits + (if r.parity = .none then 0 else 1) + r.stopBits.toNat
  · rw [if_pos hcell]
    exact h.cell (by omega) _ hpayload
  · rw [if_neg hcell]
    exact safely_ok ⟨h.with_state (Nat.zero_le _), hpayload⟩

theorem Sound.definedData (h : r.Sound) (hpayload : payload.InRange) :
    Safely SoundTurn (r.definedData payload) := by
  unfold Registers.definedData
  split
  · exact h.definedCell _ hpayload
  -- each of the three bytes may be missing, and the registers then keep those before it
  · refine StreamReader.follows_byte.safely hpayload ?_ ?_
    · exact fun e payload hpayload => safely_ok ⟨h, hpayload⟩
    intro bits payload hpayload
    have hbits : min bits.toNat 8 ≤ 8 := Nat.min_le_right ..
    refine StreamReader.follows_byte.safely hpayload ?_ ?_
    · exact fun e payload hpayload => safely_ok ⟨h.with_format hbits _ _, hpayload⟩
    intro letter payload hpayload
    refine StreamReader.follows_byte.safely hpayload ?_ ?_
    · exact fun e payload hpayload => safely_ok ⟨h.with_format hbits _ _, hpayload⟩
    intro stopBits payload hpayload
    exact ((h.with_format hbits _ stopBits).definedCell 0 hpayload).bind fun t ht =>
      safely_ok (ht.telling _)

theorem Sound.carrierWithDummy (h : r.Sound) (hpayload : payload.InRange) :
    Safely SoundTurn (r.carrierWithDummy payload) := by
  unfold Registers.carrierWithDummy
  cases hstate : r.state with
  | none =>
    refine (StreamReader.follows_number 2).safely hpayload ?_ ?_
    · exact fun e payload hpayload => safely_ok ⟨h, hpayload⟩
    intro before payload hpayload
    refine (StreamReader.follows_number 2).safely hpayload ?_ ?_
    · exact fun e payload hpayload => safely_ok ⟨h, hpayload⟩
    intro carrierAfter payload hpayload
    refine (safely_loopOver (by decide)).bind fun bits _ => safely_ok ⟨?_, hpayload⟩
    exact ⟨h.stream, h.chunk, bits.position_div_lt, h.dataBits,
      ((h.with_bits bits).with_state (by decide)).state⟩
  | some state =>
    dsimp only
    by_cases hdummy : state ≤ 10
    · rw [if_pos hdummy, increment_eq (by omega)]
      have hle : state + 1 ≤ longestFrame := Nat.le_trans (Nat.succ_le_succ hdummy) (by decide)
      exact safely_ok ⟨(h.with_bits r.bits.next.2).with_state hle, hpayload⟩
    · rw [if_neg hdummy]
      exact safely_ok ⟨h.without_state, hpayload⟩

theorem Sound.single (h : r.Sound) (hpayload : payload.InRange) {α : Type} {read : StreamReader α}
    {q : Reader α} (hread : StreamReader.Follows read q)
    (act : α → List Signal × Cycles × Binary32) :
    Safely SoundTurn (r.single payload read act) :=
  hread.safely hpayload (fun _ _ hpayload => safely_ok ⟨h, hpayload⟩) fun _ _ hpayload =>
    safely_ok ⟨⟨h.stream, h.chunk, h.index, h.dataBits, h.state⟩, hpayload⟩

theorem Sound.note (h : r.Sound) (hpayload : payload.InRange) (notice : Notice) :
    SoundTurn (r.note payload notice) := ⟨h, hpayload⟩

/-- The next unit of any chunk, also of one that the registers know nothing of. -/
theorem Sound.play (h : r.Sound) (id : UInt16) (hpayload : payload.InRange) :
    Safely SoundTurn (r.play id payload) := by
  unfold Registers.play
  cases ChunkKind.ofId id with
  | origin =>
    obtain ⟨payload', htext, hmoved⟩ := ByteStream.text_eq hpayload
    rw [htext]
    exact safely_ok (h.note hmoved.inRange _)
  | implicitData => exact h.standardData hpayload
  | definedData => exact h.definedData hpayload
  | carrier => exact h.single hpayload (StreamReader.follows_number 2) _
  | carrierWithDummy => exact h.carrierWithDummy hpayload
  | integerGap => exact h.single hpayload (StreamReader.follows_number 2) _
  | baseFrequency => exact h.single hpayload follows_binary32 _
  | securityCycles => exact safely_ok (h.note hpayload _)
  | phaseChange => exact safely_ok (h.note hpayload _)
  | floatGap => exact h.single hpayload follows_binary32 _
  | unknown => exact safely_ok (h.note hpayload _)

theorem Sound.perform (h : r.Sound) (told : List Signal) (id : UInt16)
    (hpayload : payload.InRange) :
    Safely (fun p => p.tape.Sound) (r.perform told id payload) := by
  refine (h.play id hpayload).bind fun t ht => ?_
  have hr := ht.registers
  cases t.delay with
  | error e => exact safely_ok hr
  | ok delay =>
    refine safely_ok ⟨hr.stream, ?_, hr.index, hr.dataBits, hr.state⟩
    -- what is put back is the chunk that was played
    intro c hc
    cases hstate : t.registers.state with
    | none => simp [hstate] at hc
    | some state =>
      obtain rfl : (id, t.payload) = c := by simpa [hstate] using hc
      exact ht.payload

/-- **A poll of a decoder comes to its end**, whatever is in its registers and whatever the image
has at its position, and the decoder is ready for the next. -/
theorem Sound.poll (h : r.Sound) : Safely (fun p => p.tape.Sound) r.poll := by
  unfold Registers.poll
  split
  · next id payload hchunk =>
    have hsound : ({ r with chunk := none } : Registers).Sound :=
      ⟨h.stream, nofun, h.index, h.dataBits, h.state⟩
    exact hsound.perform [] id (h.chunk _ hchunk)
  · by_cases hend : r.stream.atEnd = true
    · rw [if_pos hend]
      exact safely_ok h
    rw [if_neg hend]
    have hsound (stream : ByteStream) (hstream : stream.InRange) :
        ({ r with state := none, stream } : Registers).Sound :=
      ⟨hstream, h.chunk, h.index, h.dataBits, nofun⟩
    refine follows_readChunk.safely h.stream ?_ ?_
    · exact fun e stream hstream => safely_ok (hsound stream hstream)
    · exact fun c stream hstream =>
        (hsound stream hstream).perform _ c.id (ByteStream.inRange_start .uefChunk c.payload)

/-- Going back makes any registers ready. -/
theorem sound_rewind (r : Registers) : r.rewind.Sound :=
  ⟨Nat.min_le_right .., nofun, BitLoop.position_div_lt _, Nat.le_refl 8, nofun⟩

end

/-- Opening an image comes to its end, and a decoder that comes of it is ready. -/
theorem sound_load (image : List UInt8) (clock : Clock) :
    Safely (fun opened => ∀ notice r, opened = .ok (notice, r) → r.Sound) (load image clock) := by
  unfold load
  by_cases hmagic : magic.isPrefixOf image = true
  · rw [if_pos hmagic]
    have hrange : ((ByteStream.start .uefImage image).seek magic.length).InRange :=
      (ByteStream.moved_seek ..).inRange
    refine follows_readVersion.safely hrange ?_ ?_
    · exact fun e stream _ => safely_ok fun notice r hopened => by simp at hopened
    · intro minor stream _
      refine safely_ok fun notice r hopened => ?_
      obtain ⟨-, rfl⟩ := Prod.mk.inj (Except.ok.inj hopened)
      exact sound_rewind (fresh stream clock)
  · rw [if_neg hmagic]
    exact safely_ok fun notice r hopened => by simp at hopened

end Registers

end Uef

end Cassette.Tape
