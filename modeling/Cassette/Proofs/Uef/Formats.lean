import Cassette.Proofs.Uef.Grammar

/-!
# Two formats for the same data

Data with eight bits to a byte, no parity and one stop bit can be written in two ways: in the
standard format, or in a defined format whose first three bytes ask for just that.  The two are
not played alike.  A byte in the standard format arrives with its stop bit, and the next byte is
taken up in the same unit of work; a byte in a defined format arrives after its stop bit, in a unit
that takes no time, and after the last byte there is the time of one more bit.  To a machine that
listens they are the same.

## Main definitions

* `sounds` — the calls of some beats, those to the carrier line left out.
* `time?` — the exact time that some beats take, unless one of them fails.
* `PlaysOut` — so many polls play a chunk, and no more than that chunk.

## Main results

* `Reaches.playsOut` — a chunk is played out in as many polls as its score has beats.
* `sounds_frame`, `time?_standardFrame`, `time?_definedFrame` — a byte in the one format and in the
  other.
* `formats_agree` — **both formats sound the same, and differ by the time of one bit**.
-/

namespace Cassette.Tape

/-- The signal gives a level to the carrier line. -/
def Signal.isCarrier : Signal → Bool
  | .carrier _ => true
  | _ => false

namespace Uef

open Score

/-! ### What some beats come to -/

/-- The calls of some beats in order, those to the carrier line left out. -/
def sounds (beats : List Beat) : List Signal :=
  (beats.flatMap (·.calls)).filter fun s => !s.isCarrier

theorem sounds_append (beats more : List Beat) :
    sounds (beats ++ more) = sounds beats ++ sounds more := by
  unfold sounds
  rw [List.flatMap_append, List.filter_append]

theorem sounds_flatMap {α : Type} (xs : List α) (f : α → List Beat) :
    sounds (xs.flatMap f) = xs.flatMap fun x => sounds (f x) := by
  induction xs with
  | nil => rfl
  | cons x xs ih => rw [List.flatMap_cons, sounds_append, ih, List.flatMap_cons]

/-- The exact time that some beats take; none if one of them fails. -/
def time? : List Beat → Option Nat
  | [] => some 0
  | beat :: beats => beat.delay.toOption.bind fun delay => (time? beats).map (delay.count + ·)

theorem time?_append {beats more : List Beat} {n m : Nat} (h : time? beats = some n)
    (h' : time? more = some m) : time? (beats ++ more) = some (n + m) := by
  induction beats generalizing n with
  | nil =>
    obtain rfl : 0 = n := Option.some.inj h
    rw [Nat.zero_add]
    exact h'
  | cons beat beats ih =>
    simp only [time?, Option.bind_eq_some_iff, Option.map_eq_some_iff] at h
    obtain ⟨delay, hdelay, rest, hrest, rfl⟩ := h
    simp [time?, hdelay, ih hrest, Nat.add_assoc]

/-- Beats that all take the same time. -/
theorem time?_of_forall {beats : List Beat} {delay : Cycles}
    (h : ∀ beat ∈ beats, beat.delay = .ok delay) :
    time? beats = some (beats.length * delay.count) := by
  induction beats with
  | nil => simp [time?]
  | cons beat beats ih =>
    rw [List.forall_mem_cons] at h
    rw [time?, h.1, ih h.2, List.length_cons, Nat.succ_mul, Nat.add_comm]
    rfl

/-- The first call of a beat lowers the carrier. -/
def LowersCarrier (beat : Beat) : Prop := ∃ calls, beat.calls = .carrier false :: calls

theorem lowersCarrier_sound (calls : List Signal) (delay : Cycles) :
    LowersCarrier (.sound false calls delay) := ⟨calls, rfl⟩

/-! ### One byte -/

section

variable (t : Tuning)

/-- The time of one bit, which is cut like every other delay. -/
def bitDelay : Cycles := min (t.bitTime 1) maxDelay

/-- A start bit and the data bits of a byte, up to the stop bit. -/
def upToStop (b : UInt8) : List Beat := cell t [] false :: bits t 8 b.toNat

theorem forall_mem_upToStop {P : Beat → Prop} (h : ∀ bit, P (cell t [] bit)) (b : UInt8) :
    ∀ beat ∈ upToStop t b, P beat := by
  intro beat hbeat
  rcases List.mem_cons.mp hbeat with rfl | hbeat
  · exact h false
  · obtain ⟨i, -, rfl⟩ := List.mem_map.mp hbeat
    exact h _

theorem standardFrame_eq (b : UInt8) :
    standardFrame t b = upToStop t b ++ [cell t [.byte b] true] := rfl

theorem definedFrame_standard (b : UInt8) :
    definedFrame t .standard b
      = upToStop t b ++ [cell t [] true, .sound false [.byte b] 0] := by
  have hvalue : b.toNat % 1 <<< Framing.standard.dataBits = b.toNat :=
    Nat.mod_eq_of_lt b.toNat_lt
  simp only [definedFrame, hvalue, UInt8.ofNat_toNat]
  simp [upToStop, Framing.standard, parityBit?]

/-- A byte sounds the same in both formats: it arrives after its stop bit has begun. -/
theorem sounds_frame (b : UInt8) :
    sounds (standardFrame t b) = sounds (definedFrame t .standard b) := by
  rw [standardFrame_eq, definedFrame_standard, sounds_append, sounds_append]
  rfl

theorem time?_upToStop (b : UInt8) : time? (upToStop t b) = some (9 * (bitDelay t).count) := by
  have h := time?_of_forall (forall_mem_upToStop t (P := (·.delay = .ok (bitDelay t)))
    (fun _ => rfl) b)
  rwa [show (upToStop t b).length = 9 by simp [upToStop, bits]] at h

theorem time?_standardFrame (b : UInt8) :
    time? (standardFrame t b) = some (10 * (bitDelay t).count) := by
  have hstop : time? [cell t [.byte b] true] = some (bitDelay t).count := rfl
  rw [standardFrame_eq, time?_append (time?_upToStop t b) hstop]
  congr 1
  omega

/-- The unit in which a byte arrives takes no time. -/
theorem time?_definedFrame (b : UInt8) :
    time? (definedFrame t .standard b) = some (10 * (bitDelay t).count) := by
  have hstop : time? [cell t [] true, .sound false [.byte b] 0] = some (bitDelay t).count := rfl
  rw [definedFrame_standard, time?_append (time?_upToStop t b) hstop]
  congr 1
  omega

/-! ### A payload -/

/-- The payload of a chunk that holds `data` in a defined format of eight data bits, no parity and
one stop bit. -/
def spelledOut (data : List UInt8) : List UInt8 := 8 :: 0x4E :: 1 :: data

theorem definedData_spelledOut (data : List UInt8) :
    definedData t (spelledOut data) = data.flatMap (definedFrame t .standard) ++ [silence t] :=
  rfl

theorem sounds_data (data : List UInt8) :
    sounds (standardData t data) = sounds (definedData t (spelledOut data)) := by
  have hsilence : sounds [silence t] = [] := rfl
  rw [definedData_spelledOut, sounds_append, hsilence, List.append_nil]
  unfold standardData
  split
  · next hnil => rw [hnil, hsilence]; rfl
  · rw [sounds_flatMap, sounds_flatMap]
    exact congrArg data.flatMap (funext fun b => sounds_frame t b)

theorem time?_flatMap {frame : UInt8 → List Beat} {n : Nat}
    (h : ∀ b, time? (frame b) = some n) (data : List UInt8) :
    time? (data.flatMap frame) = some (data.length * n) := by
  induction data with
  | nil => simp [time?]
  | cons b data ih =>
    rw [List.flatMap_cons, time?_append (h b) ih, List.length_cons, Nat.succ_mul, Nat.add_comm]

/-- The data of a chunk, or one bit where there is no data. -/
theorem time?_standardData (data : List UInt8) :
    time? (standardData t data)
      = some (data.length * (10 * (bitDelay t).count)
          + if data = [] then (bitDelay t).count else 0) := by
  unfold standardData
  split
  · next hnil =>
    rw [hnil, List.length_nil, Nat.zero_mul, Nat.zero_add]
    rfl
  · exact time?_flatMap (time?_standardFrame t) data

/-- The data of a chunk, and one bit after it. -/
theorem time?_definedData (data : List UInt8) :
    time? (definedData t (spelledOut data))
      = some (data.length * (10 * (bitDelay t).count) + (bitDelay t).count) := by
  have hsilence : time? [silence t] = some (bitDelay t).count := rfl
  rw [definedData_spelledOut,
    time?_append (time?_flatMap (time?_definedFrame t) data) hsilence]

theorem lowersCarrier_data (data : List UInt8) :
    ∀ beat ∈ standardData t data ++ definedData t (spelledOut data), LowersCarrier beat := by
  have hcell : ∀ b, ∀ beat ∈ upToStop t b, LowersCarrier beat :=
    forall_mem_upToStop t fun bit => lowersCarrier_sound _ _
  rw [definedData_spelledOut]
  intro beat hbeat
  rw [List.mem_append, List.mem_append] at hbeat
  rcases hbeat with hbeat | hbeat | hbeat
  · unfold standardData at hbeat
    split at hbeat
    · rw [List.mem_singleton.mp hbeat]
      exact lowersCarrier_sound _ _
    · obtain ⟨b, -, hbeat⟩ := List.mem_flatMap.mp hbeat
      rw [standardFrame_eq, List.mem_append] at hbeat
      rcases hbeat with hbeat | hbeat
      · exact hcell b beat hbeat
      · rw [List.mem_singleton.mp hbeat]
        exact lowersCarrier_sound _ _
  · obtain ⟨b, -, hbeat⟩ := List.mem_flatMap.mp hbeat
    rw [definedFrame_standard, List.mem_append] at hbeat
    rcases hbeat with hbeat | hbeat
    · exact hcell b beat hbeat
    · rcases List.mem_cons.mp hbeat with rfl | hbeat
      · exact lowersCarrier_sound _ _
      · rw [List.mem_singleton.mp hbeat]
        exact lowersCarrier_sound _ _
  · rw [List.mem_singleton.mp hbeat]
    exact lowersCarrier_sound _ _

end

/-! ### A chunk on a tape -/

/-- The next `n` polls of a tape play out a chunk, and no more than that: between them the chunk is
in hand, and after them the tape is at `stop` with nothing in hand. -/
structure PlaysOut (t : Uef) (n : Nat) (stop : Cursor) : Prop where
  begun : 0 < n
  inHand : ∀ m, 0 < m → m < n → (t.afterPolls m).playing.isSome
  ended : (t.afterPolls n).playing = none
  cursor : (t.afterPolls n).cursor = stop

/-- A chunk stays in hand while beats of it are left. -/
theorem Reaches.inHand {t : Uef} {stop : Cursor} {m : Nat} (h : t.Reaches [] stop)
    (hm : m < (upcoming t []).length) : (t.afterPolls m).playing.isSome := by
  induction m generalizing t with
  | zero =>
    cases hp : t.playing with
    | none => simp [upcoming, hp, score] at hm
    | some p => exact congrArg Option.isSome hp
  | succ m ih =>
    cases hp : t.playing with
    | none => simp [upcoming, hp, score] at hm
    | some p =>
      obtain ⟨h', hcons⟩ := h.resume hp
      rw [hcons, List.length_cons] at hm
      exact ih h' (Nat.lt_of_succ_lt_succ hm)

/-- A chunk is played out in as many polls as its score has beats, and its score is what they
play. -/
theorem Reaches.playsOut {t : Uef} {c : Chunk} {stop : Cursor} (h : t.Reaches [c] stop)
    (hp : t.playing = none) :
    ∃ n, t.PlaysOut n stop ∧ t.beats n = Score.chunk t.tuning c := by
  have hscore : upcoming t [c] = Score.chunk t.tuning c := by
    simp [upcoming, hp, score, tuning]
  obtain ⟨h', hcons⟩ := h.begin hp
  obtain ⟨hbeats, hended, hcursor⟩ := h.played rfl
  refine ⟨_, ⟨?_, fun m hpos hm => ?_, hended, hcursor⟩, hbeats.trans hscore⟩
  · rw [hcons]
    exact Nat.succ_pos _
  · obtain ⟨m, rfl⟩ := Nat.exists_eq_succ_of_ne_zero (Nat.ne_of_gt hpos)
    rw [hcons, List.length_cons] at hm
    exact h'.inHand (Nat.lt_of_succ_lt_succ hm)

/-- **Both formats sound the same, and differ by the time of one bit.**  Of two tapes on the same
clock and over the same base tone, let the next chunk of one hold some bytes in the standard format
and that of the other the same bytes in a defined format of eight data bits, no parity and one stop
bit.  Both chunks are played out without an error.  They make the same calls, those to the carrier
line apart, which every poll begins by lowering.  The exact time that the second takes is that of
the first and one bit more, or the same if there are no bytes. -/
theorem formats_agree {t₁ t₂ : Uef} {stop₁ stop₂ : Cursor} {data : List UInt8}
    (htuning : t₁.tuning = t₂.tuning) (hp₁ : t₁.playing = none) (hp₂ : t₂.playing = none)
    (h₁ : t₁.Reaches [⟨0x0100, data⟩] stop₁)
    (h₂ : t₂.Reaches [⟨0x0104, 8 :: 0x4E :: 1 :: data⟩] stop₂) :
    ∃ n₁ n₂, t₁.PlaysOut n₁ stop₁ ∧ t₂.PlaysOut n₂ stop₂ ∧
      sounds (t₁.beats n₁) = sounds (t₂.beats n₂) ∧
      (∀ beat ∈ t₁.beats n₁ ++ t₂.beats n₂, LowersCarrier beat) ∧
      ∃ time, time? (t₁.beats n₁) = some time ∧
        time? (t₂.beats n₂) = some (time +
          if data = [] then 0 else (min (t₁.tuning.bitTime 1) maxDelay).count) := by
  obtain ⟨n₁, hout₁, hbeats₁⟩ := h₁.playsOut hp₁
  obtain ⟨n₂, hout₂, hbeats₂⟩ := h₂.playsOut hp₂
  rw [← htuning] at hbeats₂
  have hbeats₁ : t₁.beats n₁ = standardData t₁.tuning data := hbeats₁
  have hbeats₂ : t₂.beats n₂ = definedData t₁.tuning (spelledOut data) := hbeats₂
  refine ⟨n₁, n₂, hout₁, hout₂, ?_⟩
  rw [hbeats₁, hbeats₂]
  refine ⟨sounds_data _ data, lowersCarrier_data _ data, _, time?_standardData _ data, ?_⟩
  rw [time?_definedData]
  unfold bitDelay
  split <;> simp

/-- Two bytes between other chunks, over a base tone of 1200 hertz, in either format. -/
theorem formats_agree_two :
    let t₁ := ofImage (encode 10 [⟨0x0100, [0x41, 0xFF]⟩, ⟨0x0110, [1, 0]⟩]) .standard
    let t₂ := ofImage (encode 10 [⟨0x0104, [8, 0x4E, 1, 0x41, 0xFF]⟩]) .standard
    let stop₁ : Cursor := ⟨.uefImage, 20, Chunk.encode ⟨0x0110, [1, 0]⟩⟩
    let stop₂ : Cursor := ⟨.uefImage, 23, []⟩
    t₁.tuning = t₂.tuning ∧ t₁.playing = none ∧ t₂.playing = none ∧
      t₁.Reaches [⟨0x0100, [0x41, 0xFF]⟩] stop₁ ∧
      t₂.Reaches [⟨0x0104, [8, 0x4E, 1, 0x41, 0xFF]⟩] stop₂ ∧
      ∃ n₁ n₂, t₁.PlaysOut n₁ stop₁ ∧ t₂.PlaysOut n₂ stop₂ ∧
        sounds (t₁.beats n₁) = sounds (t₂.beats n₂) ∧
        (∀ beat ∈ t₁.beats n₁ ++ t₂.beats n₂, LowersCarrier beat) ∧
        ∃ time, time? (t₁.beats n₁) = some time ∧
          time? (t₂.beats n₂) = some (time + (min (t₁.tuning.bitTime 1) maxDelay).count) := by
  intro t₁ t₂ stop₁ stop₂
  have h₁ : t₁.Reaches [⟨0x0100, [0x41, 0xFF]⟩] stop₁ := ⟨rfl, rfl, rfl, by decide⟩
  have h₂ : t₂.Reaches [⟨0x0104, [8, 0x4E, 1, 0x41, 0xFF]⟩] stop₂ := ⟨rfl, rfl, rfl, by decide⟩
  have htuning : t₁.tuning = t₂.tuning := rfl
  exact ⟨htuning, rfl, rfl, h₁, h₂, formats_agree htuning rfl rfl h₁ h₂⟩

end Uef

end Cassette.Tape
