import Cassette.Proofs.Tape.Rewinding
import Cassette.Proofs.Uef.Soundness

/-!
# Sound decoders

A decoder can be given any bytes.  The lengths in them may lie past the end of the image, their
texts may go on to the end of a chunk, and their formats may ask for parities that there are none
of and for as many stop bits as a byte can count.  A poll then comes to an error, and the decoder is
polled again all the same, or goes back to the start.  Nothing that it is given and nothing that is
done with it is the end of the program: a position never leaves its bytes, a failed read does not
move it, and no counter, mask or index is asked for more than it has.

## Main definitions

* `StreamReader.Rests` — a read that fails does not move.
* `Tapefile.byteTimeWord` — the time of a byte, unless its product is too large for a word.
* `Decoder.ofImage` — a decoder of an image of a known format.
* `Decoder.Sound` — what a decoder needs for the next poll.

## Main results

* `Decoder.Sound.poll`, `Decoder.Sound.rewind`, `Decoder.Sound.after` — every operation comes to its
  end, and so do all of them in a row.
* `decoder_comes_to_its_end` — **no image is the end of the program.**
-/

namespace Cassette.Tape

/-! ### Reads that fail -/

namespace StreamReader

/-- If the read fails, then the stream is where it was. -/
def Rests {α : Type} (r : StreamReader α) : Prop :=
  ∀ (s s' : ByteStream) (e : Error), r s = .ok (.error e, s') → s' = s

theorem rests_bytes (n : Nat) : Rests (bytes n) := by
  intro s s' e h
  unfold bytes ByteStream.take at h
  cases hremaining : s.remaining with
  | error crash => simp [hremaining, bind, Except.bind] at h
  | ok remaining =>
    by_cases hn : remaining < n
    · simp only [hremaining, bind, Except.bind, if_pos hn] at h
      exact (Prod.mk.inj (Except.ok.inj h)).2.symm
    · simp [hremaining, bind, Except.bind, hn, pure, Except.pure] at h

/-- What is made of the bytes does not matter. -/
theorem Rests.map {α β : Type} {r : StreamReader α} (h : Rests r) (f : α → β) :
    Rests (do return f (← r)) := by
  intro s s' e hread
  cases hr : r s with
  | error crash => simp [bind, hr] at hread
  | ok out =>
    obtain ⟨result, s''⟩ := out
    cases result with
    | error e' =>
      simp only [bind, hr, Except.ok.injEq, Prod.mk.injEq] at hread
      exact hread.2 ▸ h s s'' e' hr
    | ok a => simp [bind, hr, pure] at hread

theorem rests_number (n : Nat) : Rests (number n) := (rests_bytes n).map _

theorem rests_byte : Rests byte := (rests_number 1).map _

theorem rests_binary32 : Rests Uef.Registers.binary32 := (rests_number 4).map _

end StreamReader

/-! ### Tapefiles -/

namespace Tapefile

/-- The time of a byte if the product of its factors has room in a word of 64 bits. -/
def byteTimeWord (clock : Clock) (control : UInt8) : Option Cycles :=
  match divider? control with
  | some divider =>
    let product := bitsPerByte control * clock.frequency.toNat * divider
    if product < Cycles.size then some (.ofNat (product / lineRate)) else none
  | none => some idleDelay

theorem divider_le {control : UInt8} {divider : Nat} (h : divider? control = some divider) :
    divider ≤ 64 := by
  unfold divider? at h
  split at h
  · obtain rfl := Option.some.inj h
    decide
  · obtain rfl := Option.some.inj h
    decide
  · obtain rfl := Option.some.inj h
    decide
  · simp at h

theorem bitsPerByte_le (control : UInt8) : bitsPerByte control ≤ 10 := by
  unfold bitsPerByte
  split <;> decide

/-- Where the product has room in a word, it is the product of the numbers. -/
theorem byteTime_eq {clock : Clock} {control : UInt8} {divider : Nat}
    (hdivider : divider? control = some divider)
    (h : bitsPerByte control * clock.frequency.toNat * divider < Cycles.size) :
    byteTime clock control
      = .ofNat (bitsPerByte control * clock.frequency.toNat * divider / lineRate) := by
  have hbits : (UInt64.ofNat (bitsPerByte control)).toNat = bitsPerByte control :=
    UInt64.toNat_ofNat_of_lt' (Nat.lt_of_le_of_lt (bitsPerByte_le control) (by decide))
  have hdivides : (UInt64.ofNat divider).toNat = divider :=
    UInt64.toNat_ofNat_of_lt' (Nat.lt_of_le_of_lt (divider_le hdivider) (by decide))
  have hrate : (UInt64.ofNat lineRate).toNat = lineRate := rfl
  have hproduct : (UInt64.ofNat (bitsPerByte control) * clock.frequency
        * UInt64.ofNat divider).toNat = bitsPerByte control * clock.frequency.toNat * divider := by
    rw [UInt64.toNat_mul, UInt64.toNat_mul, hbits, hdivides, Nat.mod_mul_mod]
    exact Nat.mod_eq_of_lt h
  have hlast : bitsPerByte control * clock.frequency.toNat * divider / lineRate
      ≤ 0xFFFFFFFFFFFFFFFF := Nat.le_trans (Nat.div_le_self _ _) (Nat.le_of_lt_succ h)
  unfold byteTime
  rw [hdivider]
  apply Cycles.ext
  rw [Cycles.count_ofUInt64, UInt64.toNat_div, hproduct, hrate, Cycles.count_ofNat,
    Nat.min_eq_left hlast]

/-- With the slowest divider and a tenth bit there are 640 cycles in one of the product. -/
theorem byteTimeWord_eq {clock : Clock} (h : 640 * clock.frequency.toNat < Cycles.size)
    (control : UInt8) : byteTimeWord clock control = some (byteTime clock control) := by
  unfold byteTimeWord
  cases hdivider : divider? control with
  | none =>
    unfold byteTime
    rw [hdivider]
  | some divider =>
    have hproduct : bitsPerByte control * clock.frequency.toNat * divider < Cycles.size :=
      calc bitsPerByte control * clock.frequency.toNat * divider
          ≤ 10 * clock.frequency.toNat * 64 :=
            Nat.mul_le_mul (Nat.mul_le_mul_right _ (bitsPerByte_le control)) (divider_le hdivider)
        _ = 640 * clock.frequency.toNat := by omega
        _ < Cycles.size := h
    dsimp only
    rw [if_pos hproduct, byteTime_eq hdivider hproduct]

variable {r : Registers}

/-- A poll comes to its end, and the position is one of the bytes or their end. -/
theorem Registers.safely_poll (h : r.stream.InRange) (control : UInt8) :
    Safely (fun p => p.tape.stream.InRange) (r.poll control) := by
  unfold Registers.poll
  by_cases hend : r.stream.atEnd = true
  · rw [if_pos hend]
    exact safely_ok h
  · rw [if_neg hend]
    refine Registers.follows_readItem.safely h ?_ ?_
    · exact fun e stream hstream => safely_ok hstream
    · exact fun item stream hstream => safely_ok hstream

end Tapefile

/-! ### Either format -/

namespace Decoder

/-- A decoder of an image of a known format, at its start. -/
def ofImage (format : Format) (image : List UInt8) (clock : Clock) :
    Except Crash (Except Error Decoder) :=
  match format with
  | .tapefile => return .ok (.tapefile (.fresh image clock))
  | .uef => do
    match ← Uef.Registers.load image clock with
    | .error e => return .error e
    | .ok (_, r) => return .ok (.uef r)

/-- The decoder is ready for any poll. -/
def Sound : Decoder → Prop
  | .tapefile r => r.stream.InRange
  | .uef r => r.Sound

variable {d : Decoder}

theorem Sound.poll (h : d.Sound) (control : UInt8) :
    Safely (fun p => p.tape.Sound) (d.poll control) := by
  cases d with
  | tapefile r =>
    exact (Tapefile.Registers.safely_poll h control).bind fun p hp => safely_ok hp
  | uef r => exact (Uef.Registers.Sound.poll h).bind fun p hp => safely_ok hp

theorem Sound.rewind (h : d.Sound) : d.rewind.Sound := by
  cases d with
  | tapefile r => exact (ByteStream.moved_seek r.stream 0).inRange
  | uef r => exact Uef.Registers.sound_rewind r

/-- Whatever is done with a decoder comes to its end, and it is ready for more. -/
theorem Sound.after (h : d.Sound) (handlings : List Handling) :
    Safely Sound (d.after handlings) := by
  induction handlings generalizing d with
  | nil => exact safely_ok h
  | cons handling handlings ih =>
    cases handling with
    | poll control => exact (h.poll control).bind fun p hp => ih hp
    | rewind => exact ih h.rewind

theorem safely_ofImage (format : Format) (image : List UInt8) (clock : Clock) :
    Safely (fun opened => ∀ d, opened = .ok d → d.Sound) (ofImage format image clock) := by
  cases format with
  | tapefile =>
    refine safely_ok fun d hopened => ?_
    obtain rfl := Except.ok.inj hopened
    exact ByteStream.inRange_start .tapefile image
  | uef =>
    refine (Uef.Registers.sound_load image clock).bind fun opened hsound => ?_
    cases opened with
    | error e => exact safely_ok fun d hopened => by simp at hopened
    | ok opened =>
      refine safely_ok fun d hopened => ?_
      obtain rfl := Except.ok.inj hopened
      exact hsound opened.1 opened.2 rfl

/-- A decoder of an image stands for the tape that the image is. -/
theorem stands_ofImage (format : Format) (image : List UInt8) (clock : Clock) :
    match (Tape.ofImage format image clock).2 with
    | .error e => ofImage format image clock = .ok (.error e)
    | .ok t => ∃ d, ofImage format image clock = .ok (.ok d) ∧ d.Stands t := by
  cases format with
  | tapefile => exact ⟨_, rfl, Tapefile.Registers.stands_fresh image clock⟩
  | uef =>
    have hload := Uef.Registers.stands_load image clock
    unfold Tape.ofImage ofImage
    cases hopened : Uef.load image clock with
    | error e =>
      rw [hopened] at hload
      have hload : Uef.Registers.load image clock = .ok (.error e) := hload
      simp only [hload, bind, Except.bind]
      rfl
    | ok opened =>
      rw [hopened] at hload
      obtain ⟨r, hload, hstands, -⟩ := hload
      simp only [hload, bind, Except.bind]
      exact ⟨_, rfl, hstands⟩

end Decoder

/-- **No image is the end of the program.**  Let any bytes be taken for an image of either format,
on any clock.  They are refused with an error or opened; and however a decoder that was opened is
then polled, for chips with any control registers, and sent back to its start, also after polls that
came to an error, every poll comes to signals and a delay or to an error, which are those of the
tape, and the decoder is left ready for the next.  The time of a byte of a tapefile has room in a
word of 64 bits unless the clock is beyond all reason, and a read that fails leaves its stream where
it was. -/
theorem decoder_comes_to_its_end (format : Format) (image : List UInt8) (clock : Clock) :
    (match (Tape.ofImage format image clock).2 with
      | .error e => Decoder.ofImage format image clock = .ok (.error e)
      | .ok t => ∃ d, Decoder.ofImage format image clock = .ok (.ok d) ∧
          ∀ handlings, ∃ d', d.after handlings = .ok d' ∧ d'.Sound ∧
            d'.Stands (t.after handlings) ∧
            ∀ control, ∃ p, d'.poll control = .ok p ∧
              p.signals = ((t.after handlings).poll control).signals ∧
              p.delay = ((t.after handlings).poll control).delay ∧ p.tape.Sound) ∧
    (640 * clock.frequency.toNat < Cycles.size → ∀ control,
      Tapefile.byteTimeWord clock control = some (Tapefile.byteTime clock control)) ∧
    (∀ n, (StreamReader.bytes n).Rests ∧ (StreamReader.number n).Rests) ∧
    StreamReader.byte.Rests ∧ Uef.Registers.binary32.Rests := by
  refine ⟨?_, Tapefile.byteTimeWord_eq, fun n => ⟨StreamReader.rests_bytes n,
    StreamReader.rests_number n⟩, StreamReader.rests_byte, StreamReader.rests_binary32⟩
  have hopened := Decoder.stands_ofImage format image clock
  obtain ⟨opened, hsafely, hsound⟩ := Decoder.safely_ofImage format image clock
  cases htape : (Tape.ofImage format image clock).2 with
  | error e => simpa only [htape] using hopened
  | ok t =>
    rw [htape] at hopened
    obtain ⟨d, hdecoder, hstands⟩ := hopened
    refine ⟨d, hdecoder, fun handlings => ?_⟩
    have hd : d.Sound := hsound d (Except.ok.inj (hsafely.symm.trans hdecoder))
    obtain ⟨d', hafter, hd'⟩ := hd.after handlings
    obtain ⟨d'', hafter', hstands'⟩ := hstands.after handlings
    obtain rfl : d' = d'' := Except.ok.inj (hafter.symm.trans hafter')
    refine ⟨d', hafter, hd', hstands', fun control => ?_⟩
    obtain ⟨p, hpoll, hp⟩ := hd'.poll control
    obtain ⟨p', hpoll', hsignals, hdelay, -⟩ := hstands'.poll control
    obtain rfl : p = p' := Except.ok.inj (hpoll.symm.trans hpoll')
    exact ⟨p, hpoll, hsignals, hdelay, hp⟩

/-- A format that breaks off after two bytes, and a chunk that is longer than the image. -/
def frayed : List UInt8 :=
  Uef.encode 10 [⟨0x0104, [9, 0x58]⟩] ++ [0x00, 0x01, 0xFF, 0xFF, 0xFF, 0xFF]

/-- Both chunks are errors, and then the decoder is idle and can go back to the start. -/
theorem decoder_comes_to_its_end_frayed :
    640 * Clock.standard.frequency.toNat < Cycles.size ∧
      Tapefile.byteTimeWord .standard 0x02 = some (Tapefile.byteTime .standard 0x02) ∧
      ∃ d d' d'' p p', Decoder.ofImage .uef frayed .standard = .ok (.ok d) ∧
        d.after [.poll 0x01] = .ok d' ∧ d'.Sound ∧
        d'.poll 0x01 = .ok p ∧ p.delay = .error (.truncated .uefImage 26 0xFFFFFFFF 0) ∧
        d.after [.poll 0x01, .poll 0x01, .poll 0x02, .rewind] = .ok d'' ∧ d''.Sound ∧
        d''.poll 0x01 = .ok p' ∧ p'.delay = .error (.truncated .uefChunk 2 1 0) := by
  have hclock : 640 * Clock.standard.frequency.toNat < Cycles.size := by decide
  obtain ⟨hend, htime, -⟩ := decoder_comes_to_its_end .uef frayed .standard
  have htape : (Tape.ofImage .uef frayed .standard).2 = .ok (.start .uef frayed .standard) := rfl
  rw [htape] at hend
  obtain ⟨d, hopened, hpolls⟩ := hend
  obtain ⟨d', hafter, hsound, -, hnext⟩ := hpolls [.poll 0x01]
  obtain ⟨p, hpoll, -, hdelay, -⟩ := hnext 0x01
  obtain ⟨d'', hafter', hsound', -, hnext'⟩ :=
    hpolls [.poll 0x01, .poll 0x01, .poll 0x02, .rewind]
  obtain ⟨p', hpoll', -, hdelay', -⟩ := hnext' 0x01
  exact ⟨hclock, htime hclock 0x02, d, d', d'', p, p', hopened, hafter, hsound, hpoll,
    hdelay.trans rfl, hafter', hsound', hpoll', hdelay'.trans rfl⟩

end Cassette.Tape
