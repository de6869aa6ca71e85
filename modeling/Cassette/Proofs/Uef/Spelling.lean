import Cassette.Proofs.Uef.Playback

/-!
# What the tones spell

A tape gives every byte twice: as tones, and as the byte itself when its frame is over.  An ear on
the tones alone finds the frame of each byte again: it is what has sounded, with the carrier down,
since the chunk was begun or the last byte arrived.  Read back bit by bit, the base tone for a clear
bit and its double for a set one, the frames of data spell the bytes that arrive after them, whatever
the format.

The dummy byte inside a carrier is the exception.  Its frame is written with the bits of `AA` between
a clear start bit and a set stop bit, but it sounds with clear and set bits exchanged.

## Main definitions

* `Spells` — the bits of a frame: start bit, data, parity and stop bits.
* `Ear`, `Delivery`, `deliveries` — what is heard of some polls, byte by byte.
* `readBack` — the bit that a tone stands for.
* `Chunk.framing?` — the format of the data in a chunk.
* `Midway` — an ear that has heard the first part of what is in hand.

## Main results

* `spells_cells` — the cells of a frame spell its byte.
* `Midway.resume`, `midway_begin` — a unit of work keeps the ear in step.
* `tones_spell_bytes` — **the tones of data spell the bytes that arrive, and the tones of a dummy
  byte spell it with all bits inverted**.
* `dummy_byte_misspelt` — as it sounds, a dummy byte is not a frame of it.
-/

namespace Cassette

/-! ### Tones -/

/-- A tone that can be played as a base tone. -/
def Binary32.IsUsable (x : Binary32) : Prop := x.isFinite = true ∧ x.isPositive = true

/-- Twice a positive number is another one. -/
theorem Binary32.IsUsable.double_ne {x : Binary32} (h : x.IsUsable) : x.double ≠ x := by
  obtain ⟨hfinite, hpositive⟩ := h
  have hlt := x.bits.toNat_lt
  simp only [isFinite, isPositive, negative, isZero, isNaN, Bool.and_eq_true, Bool.not_eq_true',
    Bool.and_eq_false_iff, decide_eq_true_eq, decide_eq_false_iff_not] at hfinite hpositive
  intro heq
  have heq : x.double.bits.toNat = x.bits.toNat := congrArg (·.bits.toNat) heq
  unfold double at heq
  dsimp only at heq
  split at heq
  · -- the fraction of a subnormal number is not zero
    simp only [UInt32.toNat_ofNat', exponentField, fraction, hiddenBit] at hpositive heq
    omega
  · split at heq
    · omega
    · split at heq
      · next htop =>
        simp only [UInt32.toNat_ofNat', exponentField] at htop heq
        omega
      · simp only [UInt32.toNat_ofNat'] at heq
        omega
namespace Tape.Uef

/-- The bit that a tone stands for over a base tone. -/
def readBack (base tone : Binary32) : Option Bool :=
  if tone = base then some false else if tone = base.double then some true else none

theorem readBack_cellTone {base : Binary32} (h : base.IsUsable) (bit : Bool) :
    readBack base (cellTone base bit) = some bit := by
  cases bit with
  | false => exact if_pos rfl
  | true => exact (if_neg h.double_ne).trans (if_pos rfl)

theorem map_readBack {base : Binary32} (h : base.IsUsable) (bits : List Bool) :
    (bits.map (cellTone base)).map (readBack base) = bits.map some := by
  rw [List.map_map]
  exact List.map_congr_left fun bit _ => readBack_cellTone h bit

/-! ### The bits of a frame -/

/-- The number with the given bits, the least significant first. -/
def bitsValue : List Bool → Nat
  | [] => 0
  | bit :: bits => bit.toNat + 2 * bitsValue bits

/-- The parity bits that may follow some data bits: one that makes the number of set bits odd or
even, or none. -/
def Parity.Agrees : Parity → List Bool → List Bool → Prop
  | .none, _, parity => parity = []
  | .odd, data, parity => parity.length = 1 ∧ (data ++ parity).count true % 2 = 1
  | .even, data, parity => parity.length = 1 ∧ (data ++ parity).count true % 2 = 0

/-- The bits are a frame of a byte: a clear start bit, the data bits from the least significant up,
the parity, and set stop bits. -/
def Spells (f : Framing) (byte : UInt8) (bits : List Bool) : Prop :=
  ∃ data parity, bits = false :: (data ++ parity ++ List.replicate f.stopBits.toNat true) ∧
    data.length = f.dataBits ∧ bitsValue data = byte.toNat ∧ f.parity.Agrees data parity

theorem bitsValue_testBit (count value : Nat) :
    bitsValue ((List.range count).map value.testBit) = value % 1 <<< count := by
  induction count generalizing value with
  | zero => simp [bitsValue, Nat.mod_one]
  | succ count ih =>
    have hshift : value.testBit ∘ Nat.succ = (value / 2).testBit :=
      funext fun i => Nat.testBit_succ value i
    have hwidth : 1 <<< (count + 1) = 2 * 1 <<< count := by
      rw [Nat.one_shiftLeft, Nat.one_shiftLeft, Nat.pow_succ, Nat.mul_comm]
    rw [List.range_succ_eq_map, List.map_cons, List.map_map, hshift, bitsValue, ih, hwidth,
      Nat.mod_mul, Nat.testBit_zero]
    congr 1
    rcases Nat.mod_two_eq_zero_or_one value with h | h <;> simp [h]

theorem agrees_cells (parity : Parity) (data : List Bool) :
    parity.Agrees data (parity.cells data) := by
  cases parity with
  | none => rfl
  | odd =>
    refine ⟨rfl, ?_⟩
    simp only [Parity.cells, List.count_append, List.count_singleton, beq_true, decide_eq_true_eq]
    split <;> omega
  | even =>
    refine ⟨rfl, ?_⟩
    simp only [Parity.cells, List.count_append, List.count_singleton, beq_true, decide_eq_true_eq]
    split <;> omega

/-- The cells of a frame spell a byte that fits it. -/
theorem spells_cells {f : Framing} {byte : UInt8} (h : f.mask byte = byte) :
    Spells f byte (f.cells byte) := by
  have hfits : byte.toNat % 1 <<< f.dataBits = byte.toNat := by
    rw [← Framing.toNat_mask, h]
  refine ⟨f.dataCells byte, f.parity.cells (f.dataCells byte), rfl, ?_, ?_, agrees_cells _ _⟩
  · rw [Framing.dataCells, List.length_map, List.length_range]
  · rw [Framing.dataCells, bitsValue_testBit, hfits]

/-! ### Listening -/

/-- A byte that has arrived, with the chunk that it came from, the base tone at the time, and the
tones of its frame. -/
structure Delivery where
  chunk? : Option Chunk
  base : Binary32
  tones : List Binary32
  byte : UInt8

/-- What an ear on a tape knows: the chunk that is being played, the level of the carrier, and the
tones since the chunk was begun, the carrier was last up, or the last byte arrived. -/
structure Ear where
  chunk? : Option Chunk := none
  carrier : Bool := false
  tones : List Binary32 := []

namespace Ear

/-- Listen to the signals of a unit of work.  A tone under the carrier is not part of a frame. -/
def listen (base : Binary32) : Ear → List Signal → Ear × List Delivery
  | e, [] => (e, [])
  | e, .carrier level :: signals =>
    listen base ⟨e.chunk?, level, if level then [] else e.tones⟩ signals
  | e, .tone hertz :: signals =>
    listen base ⟨e.chunk?, e.carrier, if e.carrier then e.tones else e.tones ++ [hertz]⟩ signals
  | e, .byte b :: signals =>
    let (e', after) := listen base ⟨e.chunk?, e.carrier, []⟩ signals
    (e', ⟨e.chunk?, base, e.tones, b⟩ :: after)
  | e, .note _ :: signals => listen base e signals

/-- The ear at the start of a poll, which may begin a chunk. -/
def turn (e : Ear) (t : Uef) : Ear :=
  if t.playing.isNone then ⟨(Chunk.read t.cursor).1.toOption, e.carrier, []⟩ else e

/-- What the ear hears of the next poll. -/
def hear (e : Ear) (t : Uef) : Ear × List Delivery := (e.turn t).listen t.base t.poll.signals

section

variable (base : Binary32) (e : Ear)

@[simp] theorem listen_note (notice : Notice) (signals : List Signal) :
    e.listen base (.note notice :: signals) = e.listen base signals := rfl

/-- Nothing escapes the ear. -/
theorem map_byte_listen (signals : List Signal) :
    (e.listen base signals).2.map (·.byte) = signals.filterMap Signal.byte? := by
  induction signals generalizing e with
  | nil => rfl
  | cons s signals ih =>
    cases s with
    | byte b => exact congrArg (b :: ·) (ih _)
    | carrier level => exact ih _
    | tone hertz => exact ih _
    | note notice => exact ih _

theorem base_of_mem_listen {signals : List Signal} {d : Delivery}
    (h : d ∈ (e.listen base signals).2) : d.base = base := by
  induction signals generalizing e with
  | nil => exact absurd h List.not_mem_nil
  | cons s signals ih =>
    cases s with
    | byte b =>
      rcases List.mem_cons.mp h with rfl | h
      · rfl
      · exact ih _ h
    | carrier level => exact ih _ h
    | tone hertz => exact ih _ h
    | note notice => exact ih _ h

theorem listen_notes {notes : List Signal} (h : notes.filter Signal.isCall = [])
    (signals : List Signal) : e.listen base (notes ++ signals) = e.listen base signals := by
  induction notes with
  | nil => rfl
  | cons s notes ih => cases s <;> simp_all [List.filter_cons]

end

end Ear

/-- What is heard of the next `n` polls of a tape, byte by byte. -/
def deliveries : Nat → Ear → Uef → List Delivery
  | 0, _, _ => []
  | n + 1, e, t => (e.hear t).2 ++ deliveries n (e.hear t).1 t.poll.tape

/-- The bytes heard are those that arrive. -/
theorem map_byte_deliveries (n : Nat) (e : Ear) (t : Uef) :
    (deliveries n e t).map (·.byte)
      = ((t.beats n).flatMap (·.calls)).filterMap Signal.byte? := by
  induction n generalizing e t with
  | zero => rfl
  | succ n ih =>
    have hcalls : (t.poll.signals.filter Signal.isCall).filterMap Signal.byte?
        = t.poll.signals.filterMap Signal.byte? := by
      rw [List.filterMap_filter]
      exact congrArg (List.filterMap · _) (funext fun s => by cases s <;> rfl)
    rw [deliveries, List.map_append, ih, beats, List.flatMap_cons, List.filterMap_append]
    exact congrArg (· ++ _) ((Ear.map_byte_listen _ _ _).trans hcalls.symm)

/-! ### Frames as they are heard -/

/-- The format of the data in a chunk, if it holds data in a format. -/
def Chunk.framing? (c : Chunk) : Option Framing :=
  match c.kind, c.payload with
  | .implicitData, _ => some .standard
  | .definedData, bits :: letter :: stopBits :: _ =>
    some ⟨min bits.toNat 8, (Parity.ofLetter? letter).getD .none, stopBits,
      Score.usableBits_le bits⟩
  | _, _ => none

/-- The tones of a delivery are the cells of its frame, upright or inverted. -/
inductive Delivery.Framed (d : Delivery) : Prop where
  | data {c : Chunk} {f : Framing} (hchunk : d.chunk? = some c) (hframing : c.framing? = some f)
      (hfits : f.mask d.byte = d.byte) (htones : d.tones = (f.cells d.byte).map (cellTone d.base))
  | dummy {c : Chunk} (hchunk : d.chunk? = some c) (hkind : c.kind = .carrierWithDummy)
      (hbyte : d.byte = dummyByte) (htones : d.tones = dummyCells.map (cellTone d.base))

/-- An ear has heard the first part of a frame, of which some cells are left. -/
def Heard (base : Binary32) (e : Ear) (frame cells : List Bool) : Prop :=
  ∃ sounded, sounded ++ cells = frame ∧ e.tones = sounded.map (cellTone base)

/-- An ear has heard the first part of the chunk in hand. -/
inductive Midway (base : Binary32) (e : Ear) : Playing → Prop where
  | standardFrame {c : Chunk} {byte : UInt8} {cells : List Bool} {rest : List UInt8}
      (hchunk : e.chunk? = some c) (hframing : c.framing? = some .standard) (hleft : cells ≠ [])
      (hheard : Heard base e (Framing.standard.cells byte) cells) :
      Midway base e (.standardFrame byte cells rest)
  | nextFrame {c : Chunk} {f : Framing} {rest : List UInt8} (hchunk : e.chunk? = some c)
      (hframing : c.framing? = some f) (htones : e.tones = []) : Midway base e (.nextFrame f rest)
  | definedFrame {c : Chunk} {f : Framing} {byte : UInt8} {cells : List Bool} {rest : List UInt8}
      (hchunk : e.chunk? = some c) (hframing : c.framing? = some f) (hfits : f.mask byte = byte)
      (hheard : Heard base e (f.cells byte) cells) : Midway base e (.definedFrame f byte cells rest)
  | dummyFrame {c : Chunk} {cells : List Bool} {after : Nat} (hchunk : e.chunk? = some c)
      (hkind : c.kind = .carrierWithDummy) (hheard : cells ≠ [] → Heard base e dummyCells cells) :
      Midway base e (.dummyFrame cells after)

/-- After what an ear has heard, it has every frame so far and is in step with what is left. -/
structure InStep (base : Binary32) (heard : Ear × List Delivery) (left : Option Playing) :
    Prop where
  framed : ∀ d ∈ heard.2, d.Framed
  midway : ∀ p, left = some p → Midway base heard.1 p

theorem inStep_of_none {base : Binary32} {heard : Ear × List Delivery} (h : heard.2 = []) :
    InStep base heard none :=
  ⟨fun d hd => absurd (h ▸ hd) List.not_mem_nil, fun _ hp => absurd hp (by simp)⟩

section

variable {t : Tuning} {e : Ear}

/-- One more cell of a frame is heard. -/
theorem Heard.cell {frame cells : List Bool} {bit : Bool} (h : Heard t.base e frame (bit :: cells)) :
    Heard t.base ⟨e.chunk?, false, e.tones ++ [cellTone t.base bit]⟩ frame cells := by
  obtain ⟨sounded, rfl, htones⟩ := h
  refine ⟨sounded ++ [bit], by simp, ?_⟩
  simp [htones]

/-- With no cells left, the whole frame has been heard. -/
theorem Heard.whole {frame : List Bool} (h : Heard t.base e frame []) :
    e.tones = frame.map (cellTone t.base) := by
  obtain ⟨sounded, rfl, htones⟩ := h
  rw [List.append_nil]
  exact htones

theorem heard_fresh (base : Binary32) {e : Ear} (h : e.tones = []) (frame : List Bool) :
    Heard base e frame frame := ⟨[], rfl, h⟩

theorem inStep_standardCell {c : Chunk} {byte : UInt8} {cells : List Bool} {rest : List UInt8}
    (hchunk : e.chunk? = some c) (hframing : c.framing? = some .standard) (hleft : cells ≠ [])
    (hheard : Heard t.base e (Framing.standard.cells byte) cells) :
    InStep t.base (e.listen t.base (Stretch.standardCell t byte cells rest).signals)
      (Stretch.standardCell t byte cells rest).playing := by
  unfold Stretch.standardCell
  split
  · exact absurd rfl hleft
  · -- the last cell of the last byte
    refine ⟨fun d hd => ?_, fun p hp => absurd hp (by simp [Stretch.last])⟩
    rw [List.mem_singleton.mp hd]
    exact .data hchunk hframing (Framing.mask_standard byte) hheard.cell.whole
  · next bit next rest =>
    -- the last cell of a byte, and the next byte is taken up
    refine ⟨fun d hd => ?_, fun p hp => ?_⟩
    · rw [List.mem_singleton.mp hd]
      exact .data hchunk hframing (Framing.mask_standard byte) hheard.cell.whole
    · obtain rfl := Option.some.inj hp
      exact .standardFrame hchunk hframing (List.cons_ne_nil _ _) (heard_fresh _ rfl _)
  · next bit cells hlast hmore =>
    refine ⟨fun d hd => absurd hd List.not_mem_nil, fun p hp => ?_⟩
    obtain rfl := Option.some.inj hp
    refine .standardFrame hchunk hframing ?_ hheard.cell
    rintro rfl
    cases rest with
    | nil => exact hlast rfl rfl
    | cons next rest => exact hmore next rest rfl rfl

theorem inStep_frameStart {c : Chunk} {f : Framing} {noted : List Signal}
    (hchunk : e.chunk? = some c) (hframing : c.framing? = some f) (htones : e.tones = [])
    (hnoted : noted.filter Signal.isCall = []) (rest : List UInt8) :
    InStep t.base (e.listen t.base (Stretch.frameStart t f noted rest).signals)
      (Stretch.frameStart t f noted rest).playing := by
  cases rest with
  | nil =>
    refine inStep_of_none ?_
    have hnotes := Ear.listen_notes t.base ⟨e.chunk?, false, e.tones⟩ hnoted []
    rw [List.append_nil] at hnotes
    exact congrArg (·.2) hnotes
  | cons byte rest =>
    have hlisten : e.listen t.base (Stretch.frameStart t f noted (byte :: rest)).signals
        = (⟨e.chunk?, false, e.tones ++ [cellTone t.base false]⟩, []) :=
      Ear.listen_notes t.base ⟨e.chunk?, false, e.tones⟩ hnoted [t.cell false]
    rw [hlisten]
    refine ⟨fun d hd => absurd hd List.not_mem_nil, fun p hp => ?_⟩
    obtain rfl := Option.some.inj hp
    exact .definedFrame hchunk hframing (Framing.mask_mask f byte)
      (heard_fresh t.base htones (f.cells (f.mask byte))).cell

/-- A unit of a chunk in hand keeps the ear in step. -/
theorem Midway.resume {p : Playing} (h : Midway t.base e p) :
    InStep t.base (e.listen t.base (Stretch.resume t p).signals) (Stretch.resume t p).playing := by
  cases h with
  | standardFrame hchunk hframing hleft hheard =>
    exact inStep_standardCell hchunk hframing hleft hheard
  | nextFrame hchunk hframing htones => exact inStep_frameStart hchunk hframing htones rfl _
  | @definedFrame c f byte cells rest hchunk hframing hfits hheard =>
    cases cells with
    | nil =>
      -- the byte arrives after its last cell
      refine ⟨fun d hd => ?_, fun p hp => ?_⟩
      · rw [List.mem_singleton.mp hd]
        exact .data hchunk hframing hfits hheard.whole
      · obtain rfl := Option.some.inj hp
        exact .nextFrame hchunk hframing rfl
    | cons bit cells =>
      refine ⟨fun d hd => absurd hd List.not_mem_nil, fun p hp => ?_⟩
      obtain rfl := Option.some.inj hp
      exact .definedFrame hchunk hframing hfits hheard.cell
  | @dummyFrame c cells after hchunk hkind hheard =>
    match cells with
    | [] => exact inStep_of_none rfl
    | [bit] =>
      refine ⟨fun d hd => ?_, fun p hp => ?_⟩
      · rw [List.mem_singleton.mp hd]
        exact .dummy hchunk hkind rfl (hheard (List.cons_ne_nil _ _)).cell.whole
      · obtain rfl := Option.some.inj hp
        exact .dummyFrame hchunk hkind fun hne => absurd rfl hne
    | bit :: next :: cells =>
      refine ⟨fun d hd => absurd hd List.not_mem_nil, fun p hp => ?_⟩
      obtain rfl := Option.some.inj hp
      exact .dummyFrame hchunk hkind fun _ => (hheard (List.cons_ne_nil _ _)).cell

theorem exists_definition {payload : List UInt8} (h : ¬payload.length < 3) :
    ∃ bits letter stopBits data, payload = bits :: letter :: stopBits :: data := by
  rcases payload with - | ⟨bits, - | ⟨letter, - | ⟨stopBits, data⟩⟩⟩
  · simp at h
  · simp at h
  · simp at h
  · exact ⟨bits, letter, stopBits, data, rfl⟩

theorem inStep_definedData {c : Chunk} (hchunk : e.chunk? = some c) (hkind : c.kind = .definedData)
    (htones : e.tones = []) :
    InStep t.base (e.listen t.base (Stretch.definedData t c.payload).signals)
      (Stretch.definedData t c.payload).playing := by
  unfold Stretch.definedData
  by_cases hshort : c.payload.length < 3
  · simp only [readFraming_short hshort]
    refine inStep_of_none ?_
    have hnotes := Ear.listen_notes t.base ⟨e.chunk?, false, e.tones⟩
      (filter_framingWarnings c.payload) []
    rw [List.append_nil] at hnotes
    exact congrArg (·.2) hnotes
  · obtain ⟨bits, letter, stopBits, data, hpayload⟩ := exists_definition hshort
    have hframing : c.framing? = some ⟨min bits.toNat 8, (Parity.ofLetter? letter).getD .none,
        stopBits, Score.usableBits_le bits⟩ := by
      unfold Chunk.framing?
      rw [hkind, hpayload]
    simp only [hpayload, readFraming_cons]
    refine inStep_frameStart hchunk hframing htones ?_ _
    rw [List.filter_append, filter_framingWarnings]
    rfl

/-- The first unit of a chunk brings the ear in step. -/
theorem midway_begin {c : Chunk} (hchunk : e.chunk? = some c) (htones : e.tones = []) :
    InStep t.base (e.listen t.base (Stretch.begin t c).signals) (Stretch.begin t c).playing := by
  unfold Stretch.begin
  split
  case h_2 hkind =>
    cases hpayload : c.payload with
    | nil => exact inStep_of_none rfl
    | cons byte rest =>
      refine inStep_standardCell hchunk ?_ (List.cons_ne_nil _ _) (heard_fresh _ htones _)
      unfold Chunk.framing?
      rw [hkind]
  case h_3 hkind => exact inStep_definedData hchunk hkind htones
  case h_5 hkind =>
    unfold Stretch.dummyLeadIn
    split
    · exact inStep_of_none rfl
    · next before after _ _ =>
      refine ⟨fun d hd => absurd hd List.not_mem_nil, fun p hp => ?_⟩
      obtain rfl := Option.some.inj hp
      exact .dummyFrame hchunk hkind fun _ => heard_fresh _ rfl _
  -- the other kinds are a single unit of work in which no byte arrives
  all_goals
    simp only [Stretch.telling, Stretch.carrier, Stretch.integerGap, Stretch.floatGap,
      Stretch.baseFrequency]
    repeat' split
    all_goals exact inStep_of_none rfl

end

/-! ### Polls in a row -/

/-- The base tone of a tape can be played, and the ear is in step with the tape. -/
structure Attuned (e : Ear) (t : Uef) : Prop where
  usable : t.base.IsUsable
  midway : ∀ p, t.playing = some p → Midway t.base e p

theorem isUsable_baseAfter {base : Binary32} (h : base.IsUsable) (c : Chunk) :
    (Score.baseAfter base c).IsUsable := by
  unfold Score.baseAfter
  split
  · unfold Score.newBase?
    split
    · dsimp only
      split
      · next hnew => simpa [Binary32.IsUsable] using hnew
      · exact h
    · exact h
  · exact h

/-- A chunk that changes the base tone is over at once. -/
theorem base_begin_of_playing {t : Tuning} {c : Chunk} {p : Playing}
    (h : (Stretch.begin t c).playing = some p) : (Stretch.begin t c).base = t.base := by
  rw [base_begin, Score.baseAfter]
  split
  · next hkind =>
    exfalso
    unfold Stretch.begin Stretch.baseFrequency at h
    rw [hkind] at h
    dsimp only at h
    repeat' split at h
    all_goals simp [Stretch.last, Stretch.failed] at h
  · rfl

/-- A poll keeps the ear in step, and every byte that arrives comes with its frame. -/
theorem Attuned.poll {e : Ear} {t : Uef} (h : Attuned e t) :
    (∀ d ∈ (e.hear t).2, d.Framed) ∧ Attuned (e.hear t).1 t.poll.tape := by
  unfold Ear.hear Ear.turn Uef.poll
  cases hp : t.playing with
  | some p =>
    have hstep := (h.midway p hp).resume (t := t.tuning)
    have hbase : (Stretch.resume t.tuning p).base = t.base := base_resume t.tuning p
    refine ⟨hstep.framed, ⟨?_, fun p' hp' => ?_⟩⟩
    · change (Stretch.resume t.tuning p).base.IsUsable
      rw [hbase]
      exact h.usable
    · change Midway (Stretch.resume t.tuning p).base _ p'
      rw [hbase]
      exact hstep.midway p' hp'
  | none =>
    dsimp only [Option.isNone_none]
    rw [if_pos rfl]
    split
    · exact ⟨fun d hd => absurd hd List.not_mem_nil, h.usable,
        fun p hp' => absurd (hp.symm.trans hp') (by simp)⟩
    · split
      · exact ⟨fun d hd => absurd hd List.not_mem_nil, h.usable, fun p hp' => nomatch hp'⟩
      · next c cursor hread =>
        have hchunk : (Chunk.read t.cursor).1.toOption = some c := by rw [hread]; rfl
        have hstep : InStep t.base _ _ := midway_begin (t := t.tuning)
          (e := ⟨(Chunk.read t.cursor).1.toOption, e.carrier, []⟩) hchunk rfl
        have hbase : (Stretch.begin t.tuning c).base = Score.baseAfter t.base c :=
          base_begin t.tuning c
        refine ⟨hstep.framed, ⟨?_, fun p' hp' => ?_⟩⟩
        · change (Stretch.begin t.tuning c).base.IsUsable
          rw [hbase]
          exact isUsable_baseAfter h.usable c
        · change Midway (Stretch.begin t.tuning c).base _ p'
          rw [base_begin_of_playing hp']
          exact hstep.midway p' hp'

theorem Attuned.deliveries {e : Ear} {t : Uef} (h : Attuned e t) (n : Nat) :
    ∀ d ∈ deliveries n e t, d.Framed ∧ d.base.IsUsable := by
  induction n generalizing e t with
  | zero => exact fun d hd => absurd hd List.not_mem_nil
  | succ n ih =>
    obtain ⟨hframed, hnext⟩ := h.poll
    intro d hd
    rcases List.mem_append.mp hd with hd | hd
    · refine ⟨hframed d hd, ?_⟩
      rw [Ear.base_of_mem_listen _ _ hd]
      exact h.usable
    · exact ih hnext d hd

theorem isUsable_defaultBase : defaultBase.IsUsable := ⟨by decide, by decide⟩

theorem attuned_ofImage (image : List UInt8) (clock : Clock) : Attuned {} (ofImage image clock) :=
  ⟨isUsable_defaultBase, fun _ hp => nomatch hp⟩

/-- **The tones spell the bytes.**  Poll an image that has been opened, also beyond errors and its
end.  The bytes that an ear hears are those that arrive, and of each of them the tones of its frame
read back as bits.  They are a frame of the byte in the format of its chunk if the chunk holds data.
Otherwise the byte is the dummy byte of a carrier, and the bits are a standard frame of it with clear
and set exchanged. -/
theorem tones_spell_bytes {image : List UInt8} {clock : Clock} {notice : Notice} {tape : Uef}
    (h : load image clock = .ok (notice, tape)) (n : Nat) :
    (deliveries n {} tape).map (·.byte)
        = ((tape.beats n).flatMap (·.calls)).filterMap Signal.byte? ∧
      ∀ d ∈ deliveries n {} tape, ∃ c bits, d.chunk? = some c ∧
        d.tones.map (readBack d.base) = bits.map some ∧
        ((∃ f, c.framing? = some f ∧ Spells f d.byte bits) ∨
          c.kind = .carrierWithDummy ∧ d.byte = 0xAA ∧ Spells .standard d.byte (bits.map not)) := by
  obtain rfl := eq_ofImage_of_load h
  refine ⟨map_byte_deliveries n _ _, fun d hd => ?_⟩
  obtain ⟨hframed, husable⟩ := (attuned_ofImage image clock).deliveries n d hd
  cases hframed with
  | @data c f hchunk hframing hfits htones =>
    refine ⟨c, f.cells d.byte, hchunk, ?_, .inl ⟨f, hframing, spells_cells hfits⟩⟩
    rw [htones, map_readBack husable]
  | @dummy c hchunk hkind hbyte htones =>
    have hupright : dummyCells.map not = Framing.standard.cells dummyByte := by decide
    refine ⟨c, dummyCells, hchunk, ?_, .inr ⟨hkind, hbyte, ?_⟩⟩
    · rw [htones, map_readBack husable]
    · rw [hupright, hbyte]
      exact spells_cells (Framing.mask_standard dummyByte)

/-- A byte in each format, of which the second asks for nine data bits, even parity and two stop
bits, over a base tone of 600 hertz, and a dummy byte. -/
theorem tones_spell_bytes_mixed :
    let image := encode 10 [⟨0x0113, [0, 0, 0x16, 0x44]⟩, ⟨0x0100, [0x41]⟩,
      ⟨0x0104, [9, 0x45, 2, 0xC3]⟩, ⟨0x0111, [1, 0, 1, 0]⟩]
    ∃ tape, load image .standard = .ok (.version 0 10, tape) ∧
      (deliveries 38 {} tape).map (·.byte) = [0x41, 0xC3, 0xAA] ∧
      ∀ d ∈ deliveries 38 {} tape, ∃ c bits, d.chunk? = some c ∧
        d.tones.map (readBack d.base) = bits.map some ∧
        ((∃ f, c.framing? = some f ∧ Spells f d.byte bits) ∨
          c.kind = .carrierWithDummy ∧ d.byte = 0xAA ∧ Spells .standard d.byte (bits.map not)) := by
  intro image
  have hload : load image .standard = .ok (.version 0 10, ofImage image .standard) := rfl
  refine ⟨_, hload, ?_, (tones_spell_bytes hload 38).2⟩
  dsimp only [image]
  decide +kernel

/-- The tones of a dummy byte begin with that of a set bit, and so are no frame of it. -/
theorem dummy_byte_misspelt :
    ∃ tape, load (encode 10 [⟨0x0111, [1, 0, 1, 0]⟩]) .standard = .ok (.version 0 10, tape) ∧
      ∃ d ∈ deliveries 12 {} tape, d.byte = 0xAA ∧
        d.tones.map (readBack d.base) = [true, true, false, true, false, true, false, true, false,
          false].map some ∧
        ∀ bits, d.tones.map (readBack d.base) = bits.map some → ¬Spells .standard d.byte bits := by
  let d : Delivery := ⟨some ⟨0x0111, [1, 0, 1, 0]⟩, defaultBase,
    dummyCells.map (cellTone defaultBase), 0xAA⟩
  have hread : d.tones.map (readBack d.base) = [true, true, false, true, false, true, false, true,
      false, false].map some := by decide
  have hheard : deliveries 12 {} (ofImage (encode 10 [⟨0x0111, [1, 0, 1, 0]⟩]) .standard) = [d] := by
    rfl
  refine ⟨_, rfl, d, by rw [hheard]; exact List.mem_singleton_self d, rfl, hread, ?_⟩
  rintro bits hbits ⟨data, parity, hframe, -⟩
  rw [hread, hframe] at hbits
  simp at hbits

end Tape.Uef

end Cassette
