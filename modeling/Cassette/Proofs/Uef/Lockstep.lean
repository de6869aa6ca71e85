import Cassette.Proofs.Uef.Playback
import Cassette.Proofs.Uef.Registers

/-!
# In step with the registers

A decoder in registers and the tape that it plays stay in step.  While a chunk goes on, the
registers hold what is left of it: its cells are those of the frame from the counted one on, and
the bits in the loop are the data cells among them.  What else the registers hold does not matter.
So every unit of work of the registers comes to its end, and it is that of the chunk.

## Main definitions

* `Registers.Holds` — the registers hold what is left of a chunk.
* `Registers.Renders`, `Registers.Does` — a unit of work of the registers is that of a chunk.

## Main results

* `Framing.drop_cells` — the cell of a frame at some place.
* `exists_loadByte` — a byte is taken up with its whole frame to come.
* `does_begin` — the first unit of a chunk.
* `does_resume` — the next unit of a chunk that goes on.
-/

namespace Cassette

namespace BitLoop

/-- The next bits of a loop are the given ones. -/
def Gives (s : BitLoop) (bits : List Bool) : Prop := s.round bits.length = bits

theorem gives_cons {s : BitLoop} {bit : Bool} {bits : List Bool} :
    s.Gives (bit :: bits) ↔ s.next.1 = bit ∧ s.next.2.Gives bits := by
  simp [Gives, round]

end BitLoop

namespace Tape.Uef

/-! ### The cells of a frame -/

namespace Framing

/-- The cell of a frame at some place: the start, the data, the parity, or the stop. -/
def cellAt (f : Framing) (b : UInt8) (place : Nat) : Bool :=
  if place = 0 then false
  else if place < 1 + f.dataBits then b.toNat.testBit (place - 1)
  else if place < 1 + f.dataBits + (if f.parity = .none then 0 else 1) then f.parity.bit b
  else true

variable (f : Framing) {b : UInt8}

/-- A byte that fits a frame has all its set bits among the data. -/
theorem count_dataCells (h : f.mask b = b) :
    (f.dataCells b).count true = Score.ones b.toNat := by
  have hlow : b.toNat < 1 <<< f.dataBits := by
    rw [← h, toNat_mask]
    exact Nat.mod_lt _ (Nat.one_shiftLeft _ ▸ Nat.two_pow_pos _)
  exact (Score.ones_eq_count f.dataBits_le hlow).symm

theorem parity_cells (h : f.mask b = b) :
    f.parity.cells (f.dataCells b)
      = List.replicate (if f.parity = .none then 0 else 1) (f.parity.bit b) := by
  cases hp : f.parity with
  | none => rfl
  | odd => simp [Parity.cells, Parity.bit, f.count_dataCells h]
  | even => simp [Parity.cells, Parity.bit, f.count_dataCells h]

theorem drop_cells (h : f.mask b = b) {place : Nat} (hplace : place < f.length) :
    (f.cells b).drop place = f.cellAt b place :: (f.cells b).drop (place + 1) := by
  have hlt : place < (f.cells b).length := by
    rw [length_cells]
    exact hplace
  rw [List.drop_eq_getElem_cons hlt]
  congr 1
  cases place with
  | zero => rfl
  | succ place =>
    simp only [cells, f.parity_cells h, cellAt, List.getElem_cons_succ, Nat.add_sub_cancel,
      List.getElem_append, List.length_append, List.length_replicate, List.getElem_replicate]
    generalize (if f.parity = .none then 0 else 1) = parityCells
    by_cases hdata : place < f.dataBits
    · have hparity : place < f.dataBits + parityCells := Nat.lt_add_right _ hdata
      have hnext : place + 1 < 1 + f.dataBits := by omega
      simp [dataCells, hdata, hparity, hnext]
    · have hnext : ¬ place + 1 < 1 + f.dataBits := by omega
      by_cases hparity : place < f.dataBits + parityCells
      · have hnext' : place + 1 < 1 + f.dataBits + parityCells := by omega
        simp [dataCells, hdata, hparity, hnext, hnext']
      · have hnext' : ¬ place + 1 < 1 + f.dataBits + parityCells := by omega
        simp [dataCells, hparity, hnext, hnext']

theorem drop_cells_length : (f.cells b).drop f.length = [] :=
  List.drop_eq_nil_of_le (Nat.le_of_eq (f.length_cells b))

theorem drop_cells_ne_nil {place : Nat} (hplace : place < f.length) :
    (f.cells b).drop place ≠ [] := by
  rw [Ne, List.drop_eq_nil_iff, length_cells]
  omega

theorem drop_dataCells (b : UInt8) {place : Nat} (hplace : place < f.dataBits) :
    (f.dataCells b).drop place = b.toNat.testBit place :: (f.dataCells b).drop (place + 1) := by
  have hlt : place < (f.dataCells b).length := by simpa [dataCells] using hplace
  rw [List.drop_eq_getElem_cons hlt]
  simp [dataCells]

end Framing

/-! ### What never fails -/

theorem increment_eq {state : Nat} (h : state ≤ 300) : increment state = .ok (state + 1) :=
  if_pos (by omega)

theorem maskBits_eq {bits : Nat} (h : bits ≤ 8) :
    ∃ mask, maskBits bits = .ok mask ∧ mask.toNat = 1 <<< bits - 1 := by
  have hall : ∀ bits ≤ 8,
      (maskBits bits).toOption.map UInt8.toNat = some (1 <<< bits - 1) := by decide
  have hbits := hall bits h
  cases hmask : maskBits bits with
  | error crash => simp [hmask, Except.toOption] at hbits
  | ok mask => exact ⟨mask, rfl, by simpa [hmask, Except.toOption] using hbits⟩

/-! ### A chunk that is one unit -/

/-- The unit of a chunk that reads its payload once: what it does with that, and how long it takes,
and the base tone after it; or the chunk is dropped. -/
def Stretch.single {α : Type} (t : Tuning) (told : List Signal) (result : Except Error α)
    (act : α → List Signal × Cycles × Binary32) : Stretch :=
  match result with
  | .error e => .failed t told e
  | .ok a => ⟨told ++ (act a).1, .ok (act a).2.1, (act a).2.2, none⟩

namespace Registers

theorem cell_eq (r : Registers) {state : Nat} (h : state ≤ 300) (signal : Signal)
    (payload : ByteStream) :
    r.cell state signal payload = .ok
      ⟨[signal], .ok (r.tuning.bitTime 1), { r with state := some (state + 1) }, payload⟩ := by
  simp only [cell, increment_eq h, bind, Except.bind]
  rfl

/-! ### What the registers hold -/

/-- The format registers are those of a frame. -/
structure Formats (r : Registers) (f : Framing) : Prop where
  dataBits : r.dataBits = f.dataBits
  parity : r.parity = f.parity
  stopBits : r.stopBits = f.stopBits

/-- A byte is on the wire, up to some cell of its frame. -/
structure Frames (r : Registers) (f : Framing) (b : UInt8) (state : Nat) : Prop where
  byte : r.byte = b
  fits : f.mask b = b
  bits : r.bits.Gives ((f.dataCells b).drop (state - 1))

/-- The registers hold what is left of a chunk. -/
def Holds (r : Registers) (id : UInt16) (payload : ByteStream) : Playing → Prop
  | .standardFrame b cells rest =>
    ChunkKind.ofId id = .implicitData ∧ payload.rest = rest ∧
      ∃ state < Framing.standard.length, r.state = some state ∧ r.Frames .standard b state ∧
        cells = (Framing.standard.cells b).drop state
  | .nextFrame f rest =>
    ChunkKind.ofId id = .definedData ∧ payload.rest = rest ∧ r.Formats f ∧ r.state = some 0
  | .definedFrame f b cells rest =>
    ChunkKind.ofId id = .definedData ∧ payload.rest = rest ∧ r.Formats f ∧
      ∃ state ≤ f.length, 0 < state ∧ r.state = some state ∧ r.Frames f b state ∧
        cells = (f.cells b).drop state
  | .dummyFrame cells after =>
    ChunkKind.ofId id = .carrierWithDummy ∧ r.carrierAfter = after ∧
      ∃ state ≤ 11, 0 < state ∧ r.state = some state ∧ cells = dummyCells.drop (state - 1) ∧
        r.bits.Gives (cells.map not)

/-- The registers hold what is left of a chunk, or know that nothing is left. -/
def Left (r : Registers) (id : UInt16) (payload : ByteStream) : Option Playing → Prop
  | none => r.state = none
  | some p => payload.InRange ∧ r.Holds id payload p

/-- The registers that a chunk has no part in are as they were. -/
structure Keeps (r r' : Registers) : Prop where
  stream : r'.stream = r.stream
  clock : r'.clock = r.clock
  chunk : r'.chunk = r.chunk

/-- A unit of work of the registers is that of a chunk. -/
structure Renders (r : Registers) (id : UInt16) (turn : Turn) (u : Stretch) : Prop where
  signals : lowered id ++ turn.signals = u.signals
  delay : turn.delay = u.delay
  base : turn.registers.base = u.base
  keeps : r.Keeps turn.registers
  left : match turn.delay with
    | .error _ => u.playing = none
    | .ok _ => turn.registers.Left id turn.payload u.playing

/-- The registers do some unit of work, which is that of a chunk. -/
def Does (r : Registers) (id : UInt16) (turn : Except Crash Turn) (u : Stretch) : Prop :=
  ∃ t, turn = .ok t ∧ r.Renders id t u

section

variable {r : Registers} {id : UInt16} {payload : ByteStream}

theorem lowered_of {kind : ChunkKind} (h : ChunkKind.ofId id = kind) (hcarrier : kind ≠ .carrier)
    (hdummy : kind ≠ .carrierWithDummy) : lowered id = [.carrier false] := by
  unfold lowered
  rw [h, if_neg (by simp [hcarrier, hdummy])]

theorem lowered_of_carrier {kind : ChunkKind} (h : ChunkKind.ofId id = kind)
    (hkind : kind = .carrier ∨ kind = .carrierWithDummy) : lowered id = [] := by
  unfold lowered
  rw [h, if_pos hkind]

theorem atEnd_iff : payload.atEnd = true ↔ payload.rest = [] := by
  simp [ByteStream.atEnd, ByteStream.rest, List.drop_eq_nil_iff]

theorem atEnd_of_rest {b : UInt8} {rest : List UInt8} (h : payload.rest = b :: rest) :
    payload.atEnd = false := by
  rw [← Bool.not_eq_true, atEnd_iff, h]
  exact List.cons_ne_nil _ _

/-! ### A byte on the wire -/

namespace Frames

variable {f : Framing} {b : UInt8} {state : Nat}

/-- After the start cell all the data bits are to come. -/
theorem first (h : r.Frames f b 0) (next : Option Nat) :
    ({ r with state := next } : Registers).Frames f b 1 := ⟨h.byte, h.fits, h.bits⟩

/-- The loop gives the data cell that is next. -/
theorem data (h : r.Frames f b state) (hpos : 0 < state) (hdata : state < 1 + f.dataBits)
    (next : Option Nat) :
    r.bits.next.1 = f.cellAt b state ∧
      ({ r with bits := r.bits.next.2, state := next } : Registers).Frames f b (state + 1) := by
  have hbits := h.bits
  rw [f.drop_dataCells b (by omega), BitLoop.gives_cons, Nat.sub_add_cancel hpos] at hbits
  refine ⟨hbits.1.trans ?_, h.byte, h.fits, hbits.2⟩
  unfold Framing.cellAt
  rw [if_neg (by omega), if_pos hdata]

/-- Past the data there is nothing more to come from the loop. -/
theorem past (h : r.Frames f b state) (hdata : 1 + f.dataBits ≤ state) (next : Option Nat) :
    ({ r with state := next } : Registers).Frames f b (state + 1) := by
  refine ⟨h.byte, h.fits, ?_⟩
  have hdrop : (f.dataCells b).drop (state + 1 - 1) = [] :=
    List.drop_eq_nil_of_le (by simp [Framing.dataCells]; omega)
  rw [hdrop]
  rfl

end Frames

/-- A byte is taken up, with its whole frame to come. -/
theorem exists_loadByte (r : Registers) (b : UInt8) (f : Framing) :
    ∃ bits, r.loadByte b f.dataBits = .ok { r with byte := f.mask b, bits } ∧
      ∀ next, ({ r with byte := f.mask b, bits, state := next } : Registers).Frames f
        (f.mask b) 0 := by
  obtain ⟨mask, hmask, hvalue⟩ := maskBits_eq f.dataBits_le
  have hbyte : b &&& mask = f.mask b := by
    rw [← UInt8.toNat_inj, UInt8.toNat_and, hvalue, f.toNat_mask, Nat.one_shiftLeft,
      Nat.and_two_pow_sub_one_eq_mod]
  obtain ⟨bits, hloop, hround⟩ := f.round_mask b
  have hgives : bits.Gives (f.dataCells (f.mask b)) := by
    unfold BitLoop.Gives
    simpa [Framing.dataCells] using hround
  refine ⟨bits, ?_, fun _ => ⟨rfl, f.mask_mask b, hgives⟩⟩
  simp only [loadByte, loopOver, Nat.min_eq_left f.dataBits_le, hmask, bind, Except.bind, hbyte,
    hloop]
  rfl

/-! ### Data in the standard format -/

theorem standardCell_more (t : Tuning) (b : UInt8) (cell : Bool) {cells : List Bool}
    (h : cells ≠ []) (rest : List UInt8) :
    Stretch.standardCell t b (cell :: cells) rest
      = .more t [.carrier false, t.cell cell] (t.bitTime 1) (.standardFrame b cells rest) := by
  cases cells with
  | nil => exact absurd rfl h
  | cons next cells => rfl

/-- A cell before the last of a byte. -/
theorem renders_standardCell (hkind : ChunkKind.ofId id = .implicitData)
    (hrange : payload.InRange) {b : UInt8} {state : Nat}
    (hstate : state + 1 < Framing.standard.length) {r' : Registers}
    (hframes : r'.Frames .standard b (state + 1)) (hnext : r'.state = some (state + 1))
    (hbase : r'.base = r.base) (hkeeps : r.Keeps r') :
    r.Renders id
      ⟨[r.tuning.cell (Framing.standard.cellAt b state)], .ok (r.tuning.bitTime 1), r', payload⟩
      (.standardCell r.tuning b ((Framing.standard.cells b).drop state) payload.rest) := by
  rw [Framing.drop_cells _ (Framing.mask_standard b) (by omega),
    standardCell_more _ _ _ (Framing.drop_cells_ne_nil _ hstate)]
  refine ⟨?_, rfl, hbase, hkeeps, ⟨hrange, hkind, rfl, ?_⟩⟩
  · rw [lowered_of hkind (by decide) (by decide)]
    rfl
  · exact ⟨state + 1, hstate, hnext, hframes, rfl⟩

theorem does_standardCell (hkind : ChunkKind.ofId id = .implicitData) (hrange : payload.InRange)
    {b : UInt8} {state : Nat} (hstate : state < Framing.standard.length)
    (hframes : r.Frames .standard b state) :
    r.Does id (r.standardCell state payload)
      (.standardCell r.tuning b ((Framing.standard.cells b).drop state) payload.rest) := by
  have hlength : Framing.standard.length = 10 := rfl
  have hdataBits : Framing.standard.dataBits = 8 := rfl
  unfold standardCell
  by_cases hzero : state = 0
  · subst hzero
    rw [if_pos rfl]
    exact ⟨_, rfl, renders_standardCell (r := r) hkind hrange (by decide)
      (hframes.first (some 1)) rfl rfl ⟨rfl, rfl, rfl⟩⟩
  · rw [if_neg hzero]
    by_cases hdata : state ≤ 8
    · obtain ⟨hbit, hnext⟩ := hframes.data (by omega) (by omega) (some (state + 1))
      rw [if_pos hdata, cell_eq _ (by omega), hbit]
      exact ⟨_, rfl, renders_standardCell (r := r) hkind hrange (by omega) hnext rfl rfl
        ⟨rfl, rfl, rfl⟩⟩
    · -- the stop cell, with which the byte arrives and the next one is taken up
      obtain rfl : state = 9 := by omega
      rw [if_neg hdata]
      have hcells : (Framing.standard.cells b).drop 9 = [true] := by
        rw [Framing.drop_cells _ (Framing.mask_standard b) hstate]
        rfl
      rw [hcells]
      cases hrest : payload.rest with
      | nil =>
        rw [atEnd_iff.mpr hrest]
        refine ⟨_, rfl, ?_, rfl, rfl, ⟨rfl, rfl, rfl⟩, rfl⟩
        rw [lowered_of hkind (by decide) (by decide), hframes.byte]
        rfl
      | cons next rest =>
        obtain ⟨payload', hbyte, hrest', hmoved⟩ := StreamReader.byte_of_rest hrange hrest
        obtain ⟨bits, hload, hfirst⟩ := r.exists_loadByte next .standard
        rw [Framing.mask_standard] at hload hfirst
        rw [hdataBits] at hload
        simp only [atEnd_of_rest hrest, hbyte, hload, bind, Except.bind, Bool.false_eq_true,
          if_false]
        refine ⟨_, rfl, ?_, rfl, rfl, ⟨rfl, rfl, rfl⟩, ⟨hmoved.inRange, hkind, hrest', ?_⟩⟩
        · rw [lowered_of hkind (by decide) (by decide), hframes.byte]
          rfl
        · exact ⟨0, by decide, rfl, hfirst _, rfl⟩

theorem Renders.of_keeps {r' : Registers} {turn : Turn} {u : Stretch} (h : r'.Renders id turn u)
    (hkeeps : r.Keeps r') : r.Renders id turn u where
  signals := h.signals
  delay := h.delay
  base := h.base
  keeps := ⟨h.keeps.stream.trans hkeeps.stream, h.keeps.clock.trans hkeeps.clock,
    h.keeps.chunk.trans hkeeps.chunk⟩
  left := h.left

/-- The first unit of data in the standard format. -/
theorem does_standardData (hkind : ChunkKind.ofId id = .implicitData) (hrange : payload.InRange)
    (hstate : r.state = none) :
    r.Does id (r.standardData payload) (.standardData r.tuning payload.rest) := by
  unfold standardData
  rw [hstate]
  cases hrest : payload.rest with
  | nil =>
    rw [atEnd_iff.mpr hrest]
    refine ⟨_, rfl, ?_, rfl, rfl, ⟨rfl, rfl, rfl⟩, hstate⟩
    rw [lowered_of hkind (by decide) (by decide)]
    rfl
  | cons b rest =>
    obtain ⟨payload', hbyte, hrest', hmoved⟩ := StreamReader.byte_of_rest hrange hrest
    obtain ⟨bits, hload, hfirst⟩ := r.exists_loadByte b .standard
    rw [Framing.mask_standard] at hload hfirst
    rw [show Framing.standard.dataBits = 8 from rfl] at hload
    obtain ⟨turn, hturn, hrenders⟩ :=
      does_standardCell hkind hmoved.inRange (by decide) (hfirst r.state)
    simp only [atEnd_of_rest hrest, hbyte, hload, bind, Except.bind, Bool.false_eq_true, if_false]
    rw [hrest'] at hrenders
    exact ⟨turn, hturn, hrenders.of_keeps ⟨rfl, rfl, rfl⟩⟩

/-! ### Data in a defined format -/

/-- Between two frames. -/
theorem renders_frameStart (hkind : ChunkKind.ofId id = .definedData) (hrange : payload.InRange)
    {f : Framing} (hformats : r.Formats f) (noted : List Signal) :
    ∃ turn, r.definedCell 0 payload = .ok turn ∧
      r.Renders id (turn.telling noted) (.frameStart r.tuning f noted payload.rest) := by
  unfold definedCell
  rw [if_pos rfl]
  cases hrest : payload.rest with
  | nil =>
    rw [atEnd_iff.mpr hrest]
    refine ⟨_, rfl, ?_, rfl, rfl, ⟨rfl, rfl, rfl⟩, rfl⟩
    rw [lowered_of hkind (by decide) (by decide)]
    simp [Turn.telling, Stretch.frameStart, Stretch.last]
  | cons b rest =>
    obtain ⟨payload', hbyte, hrest', hmoved⟩ := StreamReader.byte_of_rest hrange hrest
    obtain ⟨bits, hload, hfirst⟩ := r.exists_loadByte b f
    rw [← hformats.dataBits] at hload
    simp only [atEnd_of_rest hrest, hbyte, hload, bind, Except.bind, Bool.false_eq_true, if_false]
    refine ⟨_, cell_eq _ (by omega) _ _, ?_, rfl, rfl, ⟨rfl, rfl, rfl⟩,
      ⟨hmoved.inRange, hkind, hrest', ?_, ?_⟩⟩
    · rw [lowered_of hkind (by decide) (by decide)]
      rfl
    · exact ⟨hformats.dataBits, hformats.parity, hformats.stopBits⟩
    · exact ⟨1, by unfold Framing.length; omega, Nat.one_pos, rfl, (hfirst none).first _, by simp⟩

/-- A cell within a frame. -/
theorem does_cell (hkind : ChunkKind.ofId id = .definedData) (hrange : payload.InRange)
    {f : Framing} {b : UInt8} {state : Nat} (hstate : state < f.length) (r' : Registers)
    {signal : Signal}
    (hframes : ({ r' with state := some (state + 1) } : Registers).Frames f b (state + 1))
    (hformats' : r'.Formats f) (hbase : r'.base = r.base) (hkeeps : r.Keeps r')
    (hfits : f.mask b = b) (hsignal : signal = r.tuning.cell (f.cellAt b state)) :
    r.Does id (r'.cell state signal payload)
      (.definedCell r.tuning f b ((f.cells b).drop state) payload.rest) := by
  have hlength : f.length ≤ 300 := Nat.le_trans f.length_le (by decide)
  have htuning : r'.tuning = r.tuning := by
    unfold tuning
    rw [hbase, hkeeps.clock]
  rw [f.drop_cells hfits hstate]
  refine ⟨_, cell_eq _ (by omega) _ _, ?_, ?_, hbase, ⟨hkeeps.stream, hkeeps.clock, hkeeps.chunk⟩,
    ⟨hrange, hkind, rfl, ?_, ?_⟩⟩
  · rw [lowered_of hkind (by decide) (by decide), hsignal]
    rfl
  · rw [htuning]
    rfl
  · exact ⟨hformats'.dataBits, hformats'.parity, hformats'.stopBits⟩
  · exact ⟨state + 1, hstate, Nat.succ_pos _, rfl, hframes, rfl⟩

/-- Within a frame, or at its end. -/
theorem does_definedCell (hkind : ChunkKind.ofId id = .definedData) (hrange : payload.InRange)
    {f : Framing} (hformats : r.Formats f) {b : UInt8} {state : Nat} (hpos : 0 < state)
    (hstate : state ≤ f.length) (hframes : r.Frames f b state) :
    r.Does id (r.definedCell state payload)
      (.definedCell r.tuning f b ((f.cells b).drop state) payload.rest) := by
  have hdataBits := hformats.dataBits
  have hparity := hformats.parity
  have hlength : f.length
      = 1 + r.dataBits + (if r.parity = .none then 0 else 1) + r.stopBits.toNat := by
    rw [hdataBits, hparity, hformats.stopBits]
    rfl
  have hfits := hframes.fits
  have hzero := Nat.ne_of_gt hpos
  unfold definedCell
  rw [if_neg hzero, ← hlength]
  by_cases hdata : state < 1 + r.dataBits
  · obtain ⟨hbit, hnext⟩ := hframes.data hpos (hdataBits ▸ hdata) (some (state + 1))
    rw [if_pos hdata]
    exact does_cell hkind hrange (by omega) { r with bits := r.bits.next.2 } hnext
      ⟨hdataBits, hparity, hformats.stopBits⟩ rfl ⟨rfl, rfl, rfl⟩ hfits (congrArg _ hbit)
  · have hpast := hframes.past (hdataBits ▸ Nat.not_lt.mp hdata) (some (state + 1))
    rw [if_neg hdata]
    rw [hdataBits] at hdata
    by_cases hplace : state < 1 + r.dataBits + if r.parity = .none then 0 else 1
    · rw [if_pos hplace]
      refine does_cell hkind hrange (by omega) r hpast hformats rfl ⟨rfl, rfl, rfl⟩ hfits ?_
      rw [hdataBits, hparity] at hplace
      unfold Framing.cellAt
      rw [if_neg hzero, if_neg hdata, if_pos hplace, hframes.byte, hparity]
    · rw [if_neg hplace]
      rw [hdataBits, hparity] at hplace
      by_cases hstop : state < f.length
      · rw [if_pos hstop]
        refine does_cell hkind hrange hstop r hpast hformats rfl ⟨rfl, rfl, rfl⟩ hfits ?_
        unfold Framing.cellAt
        rw [if_neg hzero, if_neg hdata, if_neg hplace]
        rfl
      · -- all the cells are over, and the byte arrives
        obtain rfl : state = f.length := by omega
        rw [if_neg hstop, f.drop_cells_length]
        refine ⟨_, rfl, ?_, rfl, rfl, ⟨rfl, rfl, rfl⟩, ⟨hrange, hkind, rfl, ?_, rfl⟩⟩
        · rw [lowered_of hkind (by decide) (by decide), hframes.byte]
          rfl
        · exact ⟨hdataBits, hparity, hformats.stopBits⟩

/-- The first unit of data in a defined format. -/
theorem does_definedData (hkind : ChunkKind.ofId id = .definedData) (hstate : r.state = none)
    (bytes : List UInt8) :
    r.Does id (r.definedData (.start .uefChunk bytes)) (.definedData r.tuning bytes) := by
  have hlowered := lowered_of hkind (by decide) (by decide)
  have hstart := ByteStream.inRange_start .uefChunk bytes
  unfold definedData Stretch.definedData
  rw [hstate]
  -- the bytes that define the format run out after none, one or two of them, or are all there
  match bytes with
  | [] =>
    have hshort : ([] : List UInt8).length < 3 := by decide
    simp only [StreamReader.byte_of_nil hstart rfl, readFraming_short hshort, bind, Except.bind]
    exact ⟨_, rfl, by rw [hlowered]; rfl, rfl, rfl, ⟨rfl, rfl, rfl⟩, rfl⟩
  | [bits] =>
    have hshort : [bits].length < 3 := by simp
    obtain ⟨p₁, hbits, hrest₁, hmoved₁⟩ := StreamReader.byte_of_rest hstart rfl
    simp only [hbits, StreamReader.byte_of_nil hmoved₁.inRange hrest₁, hmoved₁.bytes,
      hmoved₁.region, readFraming_short hshort, bind, Except.bind]
    refine ⟨_, rfl, ?_, rfl, rfl, ⟨rfl, rfl, rfl⟩, rfl⟩
    rw [hlowered]
    simp [Stretch.failed, Stretch.framingWarnings]
  | [bits, letter] =>
    have hshort : [bits, letter].length < 3 := by simp
    obtain ⟨p₁, hbits, hrest₁, hmoved₁⟩ := StreamReader.byte_of_rest hstart rfl
    obtain ⟨p₂, hletter, hrest₂, hmoved₂⟩ := StreamReader.byte_of_rest hmoved₁.inRange hrest₁
    have hmoved := hmoved₁.trans hmoved₂
    simp only [hbits, hletter, StreamReader.byte_of_nil hmoved₂.inRange hrest₂, hmoved.bytes,
      hmoved.region, readFraming_short hshort, bind, Except.bind]
    refine ⟨_, rfl, ?_, rfl, rfl, ⟨rfl, rfl, rfl⟩, rfl⟩
    rw [hlowered]
    rfl
  | bits :: letter :: stopBits :: rest =>
    obtain ⟨p₁, hbits, hrest₁, hmoved₁⟩ := StreamReader.byte_of_rest hstart rfl
    obtain ⟨p₂, hletter, hrest₂, hmoved₂⟩ := StreamReader.byte_of_rest hmoved₁.inRange hrest₁
    obtain ⟨p₃, hstop, hrest₃, hmoved₃⟩ := StreamReader.byte_of_rest hmoved₂.inRange hrest₂
    let f : Framing := ⟨min bits.toNat 8, (Parity.ofLetter? letter).getD .none, stopBits,
      Nat.min_le_right ..⟩
    let told : Signal := .note (.framing f.dataBits f.parity.letter f.stopBits.toNat)
    obtain ⟨turn, hturn, hrenders⟩ := renders_frameStart
      (r := { r with state := none, dataBits := min bits.toNat 8,
                     parity := (Parity.ofLetter? letter).getD .none, stopBits })
      hkind hmoved₃.inRange (f := f) ⟨rfl, rfl, rfl⟩
      (Stretch.framingWarnings (bits :: letter :: stopBits :: rest) ++ [told])
    rw [hrest₃] at hrenders
    simp only [hbits, hletter, hstop, hturn, readFraming_cons, bind, Except.bind]
    exact ⟨_, rfl, hrenders.of_keeps ⟨rfl, rfl, rfl⟩⟩

/-! ### Carrier with a dummy byte -/

/-- The first unit of a carrier with a dummy byte. -/
theorem does_dummyLeadIn (hkind : ChunkKind.ofId id = .carrierWithDummy) (hstate : r.state = none)
    (bytes : List UInt8) :
    r.Does id (r.carrierWithDummy (.start .uefChunk bytes)) (.dummyLeadIn r.tuning bytes) := by
  have hlowered := lowered_of_carrier hkind (Or.inr rfl)
  have hstart := ByteStream.inRange_start .uefChunk bytes
  obtain ⟨before, payload, hbefore, hcursor, hmoved⟩ := StreamReader.follows_number 2 _ hstart
  unfold carrierWithDummy Stretch.dummyLeadIn
  rw [hstate]
  cases before with
  | error e =>
    have hlengths : Stretch.dummyLeadIn.lengths (.start .uefChunk bytes) = _ :=
      Reader.bind_eq_of_error hcursor
    simp only [hbefore, hlengths, bind, Except.bind]
    exact ⟨_, rfl, by rw [hlowered]; rfl, rfl, rfl, ⟨rfl, rfl, rfl⟩, rfl⟩
  | ok before =>
    obtain ⟨after, payload', hafter, hcursor', hmoved'⟩ :=
      StreamReader.follows_number 2 payload hmoved.inRange
    cases after with
    | error e =>
      have hlengths : Stretch.dummyLeadIn.lengths (.start .uefChunk bytes) = _ :=
        (Reader.bind_eq_of_ok hcursor).trans (Reader.bind_eq_of_error hcursor')
      simp only [hbefore, hafter, hlengths, bind, Except.bind]
      exact ⟨_, rfl, by rw [hlowered]; rfl, rfl, rfl, ⟨rfl, rfl, rfl⟩, rfl⟩
    | ok after =>
      have hlengths : Stretch.dummyLeadIn.lengths (.start .uefChunk bytes) = _ :=
        (Reader.bind_eq_of_ok hcursor).trans (Reader.bind_eq_of_ok hcursor')
      obtain ⟨bits, hloop, hround⟩ := round_dummyFrame
      simp only [hbefore, hafter, hlengths, loopOver, hloop, bind, Except.bind]
      refine ⟨_, rfl, by rw [hlowered]; rfl, rfl, rfl, ⟨rfl, rfl, rfl⟩,
        ⟨hmoved'.inRange, hkind, rfl, ?_⟩⟩
      exact ⟨1, by decide, by decide, rfl, rfl, hround⟩

/-- The next unit of a carrier with a dummy byte. -/
theorem does_dummyCell (hkind : ChunkKind.ofId id = .carrierWithDummy) (hrange : payload.InRange)
    {state : Nat} (hpos : 0 < state) (hle : state ≤ 11) (hstate : r.state = some state)
    (hbits : r.bits.Gives ((dummyCells.drop (state - 1)).map not)) :
    r.Does id (r.carrierWithDummy payload)
      (.dummyCell r.tuning (dummyCells.drop (state - 1)) r.carrierAfter) := by
  have hlength : dummyCells.length = 10 := rfl
  have hlowered := lowered_of_carrier hkind (Or.inr rfl)
  unfold carrierWithDummy
  rw [hstate]
  by_cases hcell : state ≤ 10
  · have hdrop : dummyCells.drop (state - 1)
        = dummyCells[state - 1] :: dummyCells.drop state := by
      rw [List.drop_eq_getElem_cons (by omega), Nat.sub_add_cancel hpos]
    rw [hdrop, List.map_cons, BitLoop.gives_cons] at hbits
    rw [hdrop]
    simp only [if_pos hcell, increment_eq (Nat.le_trans hcell (by decide)), bind, Except.bind]
    refine ⟨_, rfl, ?_, rfl, rfl, ⟨rfl, rfl, rfl⟩, ⟨hrange, hkind, rfl, ?_⟩⟩
    · -- the byte arrives with the last of the ten cells
      have hlast : (dummyCells.drop state).isEmpty = decide (state = 10) := by
        rw [Bool.eq_iff_iff, List.isEmpty_iff, List.drop_eq_nil_iff, hlength, decide_eq_true_iff]
        omega
      rw [hlowered, hbits.1, Bool.not_not]
      simp only [Stretch.dummyCell, Stretch.more, hlast, decide_eq_true_iff]
      rfl
    · exact ⟨state + 1, by omega, Nat.succ_pos _, rfl, rfl, hbits.2⟩
  · obtain rfl : state = 11 := by omega
    exact ⟨_, rfl, by rw [hlowered]; rfl, rfl, rfl, ⟨rfl, rfl, rfl⟩, rfl⟩

/-! ### Chunks of a single unit -/

theorem does_single {α : Type} {read : StreamReader α} {q : Reader α}
    (hread : StreamReader.Follows read q) (hstate : r.state = none) (bytes : List UInt8)
    (act : α → List Signal × Cycles × Binary32) :
    r.Does id (r.single (.start .uefChunk bytes) read act)
      (Stretch.single r.tuning (lowered id) (q (.start .uefChunk bytes)).1 act) := by
  obtain ⟨result, payload, hresult, hcursor, -⟩ :=
    hread _ (ByteStream.inRange_start .uefChunk bytes)
  rw [ByteStream.cursor_start] at hcursor
  unfold single
  rw [hcursor]
  simp only [hresult, bind, Except.bind]
  cases result with
  | error e =>
    exact ⟨_, rfl, List.append_nil _, rfl, rfl, ⟨rfl, rfl, rfl⟩, rfl⟩
  | ok a => exact ⟨_, rfl, rfl, rfl, rfl, ⟨rfl, rfl, rfl⟩, hstate⟩

theorem does_of_eq {turn : Except Crash Turn} {u u' : Stretch} (h : r.Does id turn u)
    (heq : u' = u) : r.Does id turn u' := heq ▸ h

theorem does_note {kind : ChunkKind} (hkind : ChunkKind.ofId id = kind) (hcarrier : kind ≠ .carrier)
    (hdummy : kind ≠ .carrierWithDummy) (hstate : r.state = none) (payload : ByteStream)
    (notice : Notice) : r.Does id (.ok (r.note payload notice)) (.telling r.tuning notice) := by
  refine ⟨_, rfl, ?_, rfl, rfl, ⟨rfl, rfl, rfl⟩, hstate⟩
  rw [lowered_of hkind hcarrier hdummy]
  rfl

theorem follows_binary32 : StreamReader.Follows binary32 Stretch.readBinary32 :=
  (StreamReader.follows_number 4).bind fun _ => .pure _

/-- The first unit of a chunk. -/
theorem does_begin (hstate : r.state = none) (c : Chunk) :
    r.Does c.id (r.play c.id (.start .uefChunk c.payload)) (.begin r.tuning c) := by
  obtain ⟨id, bytes⟩ := c
  have hstart := ByteStream.inRange_start .uefChunk bytes
  unfold play Stretch.begin Chunk.kind
  dsimp only
  cases hkind : ChunkKind.ofId id with
  | origin =>
    obtain ⟨payload, htext, -⟩ := ByteStream.text_eq hstart
    simp only [htext, bind, Except.bind]
    exact does_note hkind (by decide) (by decide) hstate payload _
  | implicitData => exact does_standardData hkind hstart hstate
  | definedData => exact does_definedData hkind hstate bytes
  | carrierWithDummy => exact does_dummyLeadIn hkind hstate bytes
  | carrier =>
    refine does_of_eq (does_single (StreamReader.follows_number 2) hstate bytes _) ?_
    rw [lowered_of_carrier hkind (Or.inl rfl)]
    unfold Stretch.carrier Stretch.single
    rcases Reader.number 2 (.start .uefChunk bytes) with ⟨- | -, -⟩ <;> rfl
  | integerGap =>
    refine does_of_eq (does_single (StreamReader.follows_number 2) hstate bytes _) ?_
    rw [lowered_of hkind (by decide) (by decide)]
    unfold Stretch.integerGap Stretch.single
    rcases Reader.number 2 (.start .uefChunk bytes) with ⟨- | -, -⟩ <;> rfl
  | baseFrequency =>
    refine does_of_eq (does_single follows_binary32 hstate bytes _) ?_
    rw [lowered_of hkind (by decide) (by decide)]
    unfold Stretch.baseFrequency Stretch.single
    rcases Stretch.readBinary32 (.start .uefChunk bytes) with ⟨- | hertz, -⟩
    · rfl
    · dsimp only
      split <;> rfl
  | floatGap =>
    refine does_of_eq (does_single follows_binary32 hstate bytes _) ?_
    rw [lowered_of hkind (by decide) (by decide)]
    unfold Stretch.floatGap Stretch.single
    rcases Stretch.readBinary32 (.start .uefChunk bytes) with ⟨- | seconds, -⟩
    · rfl
    · dsimp only
      split <;> rfl
  | securityCycles | phaseChange | unknown =>
    exact does_note hkind (by decide) (by decide) hstate _ _

/-- The next unit of a chunk that goes on. -/
theorem does_resume (hrange : payload.InRange) {playing : Playing}
    (h : r.Holds id payload playing) :
    r.Does id (r.play id payload) (.resume r.tuning playing) := by
  unfold play
  cases playing with
  | standardFrame b cells rest =>
    obtain ⟨hkind, rfl, state, hlt, hstate, hframes, rfl⟩ := h
    rw [hkind]
    unfold standardData
    rw [hstate]
    exact does_standardCell hkind hrange hlt hframes
  | nextFrame f rest =>
    obtain ⟨hkind, rfl, hformats, hstate⟩ := h
    obtain ⟨turn, hturn, hrenders⟩ := renders_frameStart hkind hrange hformats []
    rw [hkind]
    unfold definedData
    rw [hstate]
    exact ⟨turn, hturn, hrenders⟩
  | definedFrame f b cells rest =>
    obtain ⟨hkind, rfl, hformats, state, hle, hpos, hstate, hframes, rfl⟩ := h
    rw [hkind]
    unfold definedData
    rw [hstate]
    exact does_definedCell hkind hrange hformats hpos hle hframes
  | dummyFrame cells after =>
    obtain ⟨hkind, rfl, state, hle, hpos, hstate, rfl, hbits⟩ := h
    rw [hkind]
    exact does_dummyCell hkind hrange hpos hle hstate hbits

end

end Registers

end Tape.Uef

end Cassette
