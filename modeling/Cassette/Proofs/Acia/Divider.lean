import Cassette.Proofs.Acia.Outcome

/-!
# The divider of the tapefile

A tapefile plays its bytes at the rate of the chip's divider, and one setting of the control
register has none.  That setting asks for a reset and is never stored, so no byte is ever played
without a divider: a UEF tape does not look at it, and a tapefile always finds one.

## Main definitions

* `Divided` — no byte has been played without a divider.

## Main results

* `lacksDivider_poll` — a tape meets its divider under a register that is not that of a reset.
* `Divided.act`, `Divided.written`, `Divided.switched`, … — whatever happens keeps it so.
-/

namespace Cassette

namespace Tape

/-- Tells of a byte that is played without a divider. -/
def Signal.lacksDivider : Signal → Bool
  | .note (.invalidDivider _) => true
  | _ => false

/-! ### Tapes -/

theorem Tapefile.lacksDivider_poll {control : UInt8} (h : Acia.Control.isReset control = false)
    (t : Tapefile) : (t.poll control).signals.any Signal.lacksDivider = false := by
  -- only the fourth setting, that of a reset, divides by nothing
  have hdivider : (divider? control).isNone = false := by
    have hne : control.toNat % 4 ≠ 3 := of_decide_eq_false h
    have hsettings : control.toNat % 4 = 0 ∨ control.toNat % 4 = 1 ∨ control.toNat % 4 = 2 := by
      omega
    unfold divider?
    rcases hsettings with hset | hset | hset <;> rw [hset] <;> rfl
  have hitem (item : Item) : (item.signals control).any Signal.lacksDivider = false := by
    cases item with
    | byte b =>
      simp only [Item.signals, hdivider]
      rfl
    | carrierLost => rfl
    | carrierPresent => rfl
  unfold poll
  split
  · rfl
  · split
    · exact hitem _
    · rfl

namespace Uef

theorem lacksDivider_standardCell (t : Tuning) (byte : UInt8) (cells : List Bool)
    (rest : List UInt8) :
    (Stretch.standardCell t byte cells rest).signals.any Signal.lacksDivider = false := by
  unfold Stretch.standardCell
  split <;> rfl

theorem lacksDivider_frameStart (t : Tuning) (framing : Framing) {noted : List Signal}
    (hnoted : noted.any Signal.lacksDivider = false) (rest : List UInt8) :
    (Stretch.frameStart t framing noted rest).signals.any Signal.lacksDivider = false := by
  cases rest with
  | nil => exact hnoted
  | cons byte rest =>
    change (noted ++ [t.cell false]).any Signal.lacksDivider = false
    rw [List.any_append, hnoted]
    rfl

theorem lacksDivider_framingWarnings (payload : List UInt8) :
    (Stretch.framingWarnings payload).any Signal.lacksDivider = false := by
  rcases payload with - | ⟨bits, - | ⟨letter, rest⟩⟩
  · rfl
  · simp only [Stretch.framingWarnings, List.append_nil]
    split <;> rfl
  · simp only [Stretch.framingWarnings, List.any_append]
    split <;> split <;> rfl

theorem lacksDivider_definedData (t : Tuning) (payload : List UInt8) :
    (Stretch.definedData t payload).signals.any Signal.lacksDivider = false := by
  unfold Stretch.definedData
  dsimp only
  split
  · exact lacksDivider_framingWarnings payload
  · refine lacksDivider_frameStart t _ ?_ _
    rw [List.any_append, lacksDivider_framingWarnings]
    rfl

theorem lacksDivider_resume (t : Tuning) (p : Playing) :
    (Stretch.resume t p).signals.any Signal.lacksDivider = false := by
  cases p with
  | standardFrame byte cells rest => exact lacksDivider_standardCell t byte cells rest
  | nextFrame framing rest => exact lacksDivider_frameStart t framing rfl rest
  | definedFrame framing byte cells rest => cases cells <;> rfl
  | dummyFrame cells after =>
    cases cells with
    | nil => rfl
    | cons cell cells => cases cells <;> rfl

theorem lacksDivider_begin (t : Tuning) (c : Chunk) :
    (Stretch.begin t c).signals.any Signal.lacksDivider = false := by
  unfold Stretch.begin
  split
  case h_2 =>
    cases c.payload with
    | nil => rfl
    | cons byte rest => exact lacksDivider_standardCell t byte _ rest
  case h_3 => exact lacksDivider_definedData t c.payload
  -- the other kinds are a single read, if any, and a fixed list of signals
  all_goals
    simp only [Stretch.telling, Stretch.carrier, Stretch.dummyLeadIn, Stretch.integerGap,
      Stretch.floatGap, Stretch.baseFrequency]
    repeat' split
    all_goals rfl

/-- A UEF tape does not look at the divider. -/
theorem lacksDivider_poll (t : Uef) : t.poll.signals.any Signal.lacksDivider = false := by
  unfold poll
  split
  · exact lacksDivider_resume t.tuning _
  · split
    · rfl
    · split
      · rfl
      · next chunk cursor _ => exact lacksDivider_begin t.tuning chunk

end Uef

/-- A tape meets its divider under a register that is not that of a reset. -/
theorem lacksDivider_poll {control : UInt8} (h : Acia.Control.isReset control = false) (t : Tape) :
    (t.poll control).signals.any Signal.lacksDivider = false := by
  cases t with
  | tapefile t => exact t.lacksDivider_poll h
  | uef t => exact t.lacksDivider_poll

theorem lacksDivider_run {control : UInt8} (h : Acia.Control.isReset control = false) (t : Tape) :
    ∀ unit ∈ t.run control, unit.signals.any Signal.lacksDivider = false := by
  induction t using run_induct control with
  | last t _ =>
    intro unit hunit
    rw [List.mem_singleton.mp hunit]
    exact t.lacksDivider_poll h
  | more t _ ih =>
    intro unit hunit
    rcases List.mem_cons.mp hunit with rfl | hunit
    · exact t.lacksDivider_poll h
    · exact ih unit hunit

end Tape

namespace Acia

variable {ρ : Type}

/-- Tells of a byte that is played without a divider. -/
def Event.lacksDivider : Event → Bool
  | .signal s => s.lacksDivider
  | _ => false

/-- No byte has been played without a divider. -/
def Divided (c : Chip ρ) : Prop := ∀ m ∈ c.moments, m.event.lacksDivider = false

namespace Divided

variable {c : Chip ρ} (now : Cycles)

theorem record (h : Divided c) {e : Event} (he : e.lacksDivider = false) :
    Divided (c.record now e) := by
  intro m hm
  rcases List.mem_cons.mp hm with rfl | hm
  · exact he
  · exact h m hm

/-- What leaves the trace alone keeps it so. -/
theorem of_moments (h : Divided c) {d : Chip ρ} (hmoments : d.moments = c.moments) :
    Divided d := by
  unfold Divided
  rw [hmoments]
  exact h

theorem playTone (h : Divided c) (hertz : Binary32) : Divided (c.playTone now hertz) := by
  unfold Chip.playTone
  split
  · exact h
  · split
    · exact h.record now rfl
    · exact h.record now rfl

theorem cassetteCarrier (h : Divided c) (level : Bool) : Divided (c.cassetteCarrier level) := by
  unfold Chip.cassetteCarrier
  split <;> exact h

/-! ### Time -/

theorem take (h : Divided c) {s : Tape.Signal} (hs : s.lacksDivider = false) :
    Divided (c.take now s) := by
  have hrecord := h.record now (e := .signal s) hs
  cases s with
  | byte b => exact hrecord
  | carrier level => exact hrecord.cassetteCarrier level
  | tone hertz => exact hrecord.playTone now hertz
  | note notice => exact hrecord

theorem foldl_take (h : Divided c) {signals : List Tape.Signal}
    (hsignals : signals.any Tape.Signal.lacksDivider = false) :
    Divided (signals.foldl (Chip.take now) c) := by
  induction signals generalizing c with
  | nil => exact h
  | cons s signals ih =>
    rw [List.any_cons, Bool.or_eq_false_iff] at hsignals
    exact ih (h.take now hsignals.1) hsignals.2

theorem play (h : Divided c) {unit : Tape.Played Tape}
    (hunit : unit.signals.any Tape.Signal.lacksDivider = false) : Divided (c.play now unit) := by
  let played := unit.signals.foldl (Chip.take now) c
  have hplayed : Divided played := h.foldl_take now hunit
  -- whether the tape goes on or is ejected, what is recorded last is not a signal of it
  unfold Chip.play
  dsimp only
  split
  · exact (hplayed.of_moments (d := { played with deck := some unit.tape }) rfl).record now rfl
  · next e _ =>
    exact (hplayed.of_moments (d := { played with deck := none, deckError := some e }) rfl).record
      now rfl

theorem foldl_play (h : Divided c) {units : List (Tape.Played Tape)}
    (hunits : ∀ unit ∈ units, unit.signals.any Tape.Signal.lacksDivider = false) :
    Divided (units.foldl (Chip.play now) c) := by
  induction units generalizing c with
  | nil => exact h
  | cons unit units ih =>
    exact ih (h.play now (hunits unit List.mem_cons_self))
      fun later hlater => hunits later (List.mem_cons_of_mem _ hlater)

theorem pollTape (h : Divided c) (hcontrol : Control.isReset c.control = false) :
    Divided (c.pollTape now).2 := by
  unfold Chip.pollTape
  split
  · next tape _ _ => exact h.foldl_play now (tape.lacksDivider_run hcontrol)
  · exact h

theorem pollPeer [SerialPeer ρ] (h : Divided c) : Divided (c.pollPeer now) := by
  unfold Chip.pollPeer
  split
  · exact h
  · next peer _ =>
    -- the question is recorded with its answer; the byte itself is none of the tape's
    have hasked : ∀ peer answer, Divided (({ c with peer := some peer } : Chip ρ).record now
        (.asked (Control.requestToSend c.control) answer)) :=
      fun peer answer => (h.of_moments (d := { c with peer := some peer }) rfl).record now rfl
    dsimp only
    cases (SerialPeer.offer peer (Control.requestToSend c.control)).1 with
    | none => exact hasked _ none
    | some b => exact hasked _ (some b)

/-- An act of a timer keeps it so. -/
theorem act [SerialPeer ρ] (h : Divided c) (hcontrol : Control.isReset c.control = false)
    (timer : Timer) : Divided (timer.act now c).2 := by
  cases timer with
  | transmit => exact h
  | tape => exact h.pollTape now hcontrol
  | rs423 =>
    rw [Timer.act_rs423]
    split
    · exact h.pollPeer now
    · exact h

/-- So does an advance. -/
theorem advance [SerialPeer ρ] (h : Divided c) (hcontrol : Control.isReset c.control = false)
    {s s' : Scheduler Timer} {c' : Chip ρ} (htimed : Timed s c) {limit : Nat} {target : Cycles}
    (hadv : Scheduler.advance Timer.routine limit target s c = .ok (s', c')) : Divided c' := by
  obtain ⟨-, ⟨h', -⟩, -⟩ := htimed.induct
    (fun _ c => Divided c ∧ Control.isReset c.standing.control = false)
    (fun {s c e rest timer} _ h _ _ _ =>
      ⟨h.1.act e.due h.2 timer, by rw [standing_act]; exact h.2⟩)
    ⟨h, hcontrol⟩ hadv
  exact h'

/-! ### Operations -/

variable {a : Acia ρ}

theorem noise (h : Divided a.chip) {e : Event} (he : e.lacksDivider = false) :
    Divided (a.noise e).chip := by
  unfold Acia.noise
  split
  · exact h.record a.now he
  · exact h

theorem tell (h : Divided a.chip) (told : List Tape.Notice) : Divided (a.tell told).chip := by
  unfold Acia.tell
  induction told generalizing a with
  | nil => exact h
  | cons notice told ih => exact ih (h.record a.now rfl)

theorem read (h : Divided a.chip) (address : UInt16) : Divided (a.read address).2.chip := by
  unfold Acia.read
  split <;> exact h

theorem written [SerialPeer ρ] (h : Divided a.chip) (address : UInt16) (value : UInt8) :
    Divided (a.written address value).chip := by
  unfold Acia.written
  split
  · change Divided ((a.chip.fill).transmit a.now value)
    unfold Chip.transmit
    -- only a device that hears the byte adds to the trace
    split
    · exact (h.of_moments (d := { a.chip.fill with peer := some _ }) rfl).record a.now rfl
    · exact h
  · split <;> exact h

theorem selected (h : Divided a.chip) (selected : Bool) : Divided (a.selected selected).chip := by
  change Divided (a.chip.select selected)
  unfold Chip.select
  dsimp only
  split <;> exact h

theorem switched (h : Divided a.chip) (on : Bool) : Divided (a.switched on).chip := by
  have hrelayed : Divided (a.relayed on).chip :=
    (h.of_moments (d := { a.chip with motorOn := on }) rfl).record a.now rfl
  unfold Acia.switched
  split
  · exact h
  · split
    · next hon =>
      subst hon
      exact noise (a := a.relayed true) hrelayed rfl
    · next hon =>
      rw [eq_false_of_ne_true hon] at hrelayed
      exact noise (a := ((a.relayed false).keep .tape false 1).onChip fun c =>
        (c.playTone a.now .zero).cassetteCarrier false)
        ((hrelayed.playTone a.now .zero).cassetteCarrier false) rfl

theorem rated (h : Divided a.chip) (rate : UInt32) : Divided (a.rated rate).chip := by
  unfold Acia.rated
  split <;> exact h

theorem loaded (h : Divided a.chip) (tape : Tape) : Divided (a.loaded tape).chip :=
  (h.record a.now (e := .note (.inserted tape.format)) rfl).of_moments rfl

theorem opened (h : Divided a.chip) (image : List Tape.Notice × Except Tape.Error Tape) :
    Divided (a.opened image).chip := by
  obtain ⟨told, opened⟩ := image
  cases opened with
  | error e => exact h.tell told
  | ok tape => exact loaded (h.tell told) tape

theorem rewind (h : Divided a.chip) : Divided a.rewind.chip := by
  unfold Acia.rewind
  split
  · exact h
  · exact (h.record a.now (e := .note .rewinding) rfl).of_moments rfl

end Divided

end Acia

end Cassette
