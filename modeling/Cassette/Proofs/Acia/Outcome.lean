import Cassette.Proofs.Acia.Pending
import Cassette.Proofs.Acia.Standing

/-!
# What operations come to

With the timers in their places no operation of the chip can break the scheduler's contract, and
all that an operation ever does to a timer is to keep it pending or to cancel it.  So every
operation succeeds with a chip that can be written down.

## Main definitions

* `Acia.keep` — the chip with one of its timers kept pending, or cancelled.
* `Acia.written`, `selected`, `switched`, `loaded`, … — the chip after an operation.

## Main results

* `write_eq`, `selectRs423_eq`, `switchMotor_eq`, `insert_eq`, `eject_eq` — the operations come to
  that.
-/

namespace Cassette.Acia

variable {ρ : Type}

@[simp] theorem timers_noise (a : Acia ρ) (e : Event) : (a.noise e).timers = a.timers := by
  unfold noise
  split <;> rfl

@[simp] theorem timers_tell (a : Acia ρ) (told : List Tape.Notice) :
    (a.tell told).timers = a.timers := by
  unfold tell
  induction told generalizing a with
  | nil => rfl
  | cons notice told ih => exact ih _

namespace InPlace

variable {a : Acia ρ}

theorem onChip (h : a.InPlace) (f : Chip ρ → Chip ρ) : (a.onChip f).InPlace := h

theorem noise (h : a.InPlace) (e : Event) : (a.noise e).InPlace := by
  unfold InPlace
  rw [timers_noise]
  exact h

theorem tell (h : a.InPlace) (told : List Tape.Notice) : (a.tell told).InPlace := by
  unfold InPlace
  rw [timers_tell]
  exact h

end InPlace

/-! ### The chip after an operation -/

/-- The receive side belongs to RS423, or to the cassette. -/
def Chip.select (c : Chip ρ) (selected : Bool) : Chip ρ :=
  let c := { c with rs423Selected := selected, status := { c.status with sendHeld := selected } }
  if selected then c.setCarrier false else c

/-- The transmit register is full. -/
def Chip.fill (c : Chip ρ) : Chip ρ := { c with status := { c.status with transmitEmpty := false } }

/-- The chip after a register has been written. -/
def written [SerialPeer ρ] (a : Acia ρ) (address : UInt16) (value : UInt8) : Acia ρ :=
  if isData address then
    ((a.onChip Chip.fill).keep .transmit true a.transmitDelay).onChip (·.transmit a.now value)
  else if Control.isReset value then a.reset
  else a.onChip ({ · with control := value })

/-- The chip after the receive side has been given to RS423, or to the cassette. -/
def selected (a : Acia ρ) (selected : Bool) : Acia ρ :=
  (a.onChip (·.select selected)).keep .rs423 selected (a.chip.select selected).byteTime

/-- The chip after the motor relay has been heard to take its new position. -/
def relayed (a : Acia ρ) (on : Bool) : Acia ρ :=
  (a.onChip ({ · with motorOn := on })).record (.note (.motor on))

/-- The chip after the motor has been switched. -/
def switched (a : Acia ρ) (on : Bool) : Acia ρ :=
  if on = a.chip.motorOn then a
  else if on then
    ((a.relayed true).noise .motorOn).keep .tape
      ((a.relayed true).noise .motorOn).chip.deck.isSome 1
  else
    ((((a.relayed false).onChip (·.playTone a.now .zero)).keep .tape false 1).onChip
      (·.cassetteCarrier false)).noise .motorOff

/-- The chip after the receive rate has been set; a rate of zero breaks its contract. -/
def rated (a : Acia ρ) (rate : UInt32) : Acia ρ :=
  if rate = 0 then a else a.onChip ({ · with receiveRate := rate })

/-- The chip after a tape has gone into the deck, which begins anew if the motor is on. -/
def loaded (a : Acia ρ) (tape : Tape) : Acia ρ :=
  (((a.record (.note (.inserted tape.format))).onChip ({ · with deck := some tape })).keep
    .tape false 1).keep .tape a.chip.motorOn 1

/-- The chip after an image has been opened, and its tape put into the deck if there is one. -/
def opened (a : Acia ρ) : List Tape.Notice × Except Tape.Error Tape → Acia ρ
  | (told, .error _) => a.tell told
  | (told, .ok tape) => (a.tell told).loaded tape

/-- The chip after the tape has been taken out of the deck. -/
def unloaded (a : Acia ρ) : Acia ρ := (a.keep .tape false 1).onChip ({ · with deck := none })

theorem now_rated (a : Acia ρ) (rate : UInt32) : (a.rated rate).now = a.now := by
  unfold rated
  split <;> rfl

theorem now_switched (a : Acia ρ) (on : Bool) : (a.switched on).now = a.now := by
  have hnoise (a : Acia ρ) (e : Event) : (a.noise e).now = a.now :=
    congrArg Scheduler.epoch (timers_noise a e)
  unfold switched
  split
  · rfl
  · split
    · rw [now_keep, hnoise]
      rfl
    · rw [hnoise]
      exact now_keep _ .tape false 1

/-! ### The operations -/

section

variable {a : Acia ρ} (h : a.InPlace)

include h

theorem write_eq [SerialPeer ρ] (hdelay : a.transmitDelay ≠ 0) (address : UInt16) (value : UInt8) :
    a.write address value = .ok (a.written address value) := by
  unfold write written
  split
  · -- the register is full before the timer starts, and the device hears the byte after that
    have hkeep := command_keepArmed (h.onChip Chip.fill) .transmit true hdelay
    change (do
      let b ← (a.onChip Chip.fill).command (.keepArmed Timer.transmit.id true a.transmitDelay)
      return b.onChip (·.transmit b.now value)) = _
    rw [hkeep]
    change Except.ok (Acia.onChip _ (·.transmit (Acia.now _) value)) = _
    rw [now_keep]
    rfl
  · split <;> rfl

theorem selectRs423_eq (selected : Bool) : a.selectRs423 selected = .ok (a.selected selected) :=
  command_keepArmed (h.onChip (·.select selected)) .rs423 selected (Timer.byteTime_ne_zero _)

theorem switchMotor_eq (on : Bool) : a.switchMotor on = .ok (a.switched on) := by
  unfold switchMotor switched
  split
  · rfl
  · cases on with
    | true =>
      exact command_keepArmed (InPlace.noise (a := a.relayed true) h .motorOn) .tape _ (by decide)
    | false =>
      have hcancel := command_cancel
        (InPlace.onChip (a := a.relayed false) h (·.playTone a.now .zero)) .tape
      change (do
        let b ← ((a.relayed false).onChip (·.playTone a.now .zero)).command (.cancel Timer.tape.id)
        return (b.onChip (·.cassetteCarrier false)).noise .motorOff) = _
      rw [hcancel]
      rfl

theorem insert_eq (tape : Tape) : a.insert tape = .ok (a.chip.deck, a.loaded tape) := by
  let b := ((a.record (.note (.inserted tape.format))).onChip ({ · with deck := some tape }))
  have hb : b.InPlace := h
  have hcancel := command_cancel hb .tape
  change (do
    let b ← b.command (.cancel Timer.tape.id)
    let b ← if b.chip.motorOn then b.command (.arm Timer.tape.id 1) else pure b
    return (a.chip.deck, b)) = _
  rw [hcancel]
  change (do
    let b ← if a.chip.motorOn then (b.keep .tape false 1).command (.arm Timer.tape.id 1)
      else pure (b.keep .tape false 1)
    return (a.chip.deck, b)) = .ok (a.chip.deck, (b.keep .tape false 1).keep .tape a.chip.motorOn 1)
  cases a.chip.motorOn with
  | true =>
    -- the timer has just been cancelled, so it can be armed
    have hidle : Timer.tape.due? (b.keep .tape false 1).timers = none := by
      change Timer.tape.due? (Timer.keep _ _ _ _) = none
      rw [Timer.due?_keep]
      rfl
    rw [if_pos rfl, command_arm (hb.keep .tape false 1) .tape hidle (by decide)]
    rfl
  | false =>
    -- to keep it from running is to cancel it once more
    change Except.ok (a.chip.deck, b.keep .tape false 1) = .ok (a.chip.deck, Acia.mk b.chip
      ((b.timers.dismiss Timer.tape.id).dismiss Timer.tape.id) b.transmitDelay)
    rw [Scheduler.dismiss_dismiss]
    rfl

theorem eject_eq : a.eject = .ok (a.chip.deck, a.unloaded) := by
  unfold eject
  rw [command_cancel h .tape]
  rfl

end

/-! ### How the operations set the chip up -/

@[simp] theorem standing_noise (a : Acia ρ) (e : Event) :
    (a.noise e).chip.standing = a.chip.standing := by
  unfold noise
  split <;> rfl

@[simp] theorem deck_noise (a : Acia ρ) (e : Event) : (a.noise e).chip.deck = a.chip.deck := by
  unfold noise
  split <;> rfl

theorem standing_select (c : Chip ρ) (selected : Bool) :
    (c.select selected).standing
      = { c.standing with rs423Selected := selected, sendHeld := selected } := by
  unfold Chip.select
  dsimp only
  split
  · exact standing_setCarrier _ false
  · rfl

theorem deck_select (c : Chip ρ) (selected : Bool) : (c.select selected).deck = c.deck := by
  unfold Chip.select
  dsimp only
  split <;> rfl

theorem standing_tell (a : Acia ρ) (told : List Tape.Notice) :
    (a.tell told).chip.standing = a.chip.standing := by
  unfold tell
  induction told generalizing a with
  | nil => rfl
  | cons notice told ih => exact ih _

theorem standing_read (a : Acia ρ) (address : UInt16) :
    (a.read address).2.chip.standing = a.chip.standing := by
  unfold read
  split <;> rfl

theorem standing_written [SerialPeer ρ] (a : Acia ρ) (address : UInt16) (value : UInt8) :
    (a.written address value).chip.standing
      = if isData address then { a.chip.standing with transmitEmpty := false }
        else if Control.isReset value then { a.chip.standing with transmitEmpty := true }
        else { a.chip.standing with control := value } := by
  unfold written
  split
  · exact standing_transmit a.now a.chip.fill value
  · split <;> rfl

theorem standing_switched (a : Acia ρ) (on : Bool) :
    (a.switched on).chip.standing = { a.chip.standing with motorOn := on } := by
  unfold switched
  split
  · next hon =>
    rw [hon]
    rfl
  · split
    · next hon =>
      rw [hon]
      exact standing_noise (a.relayed true) .motorOn
    · next hon =>
      rw [standing_noise, eq_false_of_ne_true hon]
      change (Chip.cassetteCarrier ((a.relayed false).chip.playTone a.now .zero) false).standing = _
      rw [standing_cassetteCarrier, standing_playTone]
      rfl

theorem standing_rated (a : Acia ρ) (rate : UInt32) :
    (a.rated rate).chip.standing
      = { a.chip.standing with
          receiveRate := if rate = 0 then a.chip.receiveRate else rate } := by
  unfold rated
  split <;> rfl

theorem standing_rewind (a : Acia ρ) : a.rewind.chip.standing = a.chip.standing := by
  unfold rewind
  split <;> rfl

theorem standing_opened (a : Acia ρ) (image : List Tape.Notice × Except Tape.Error Tape) :
    (a.opened image).chip.standing = a.chip.standing := by
  obtain ⟨told, opened⟩ := image
  cases opened with
  | error e => exact standing_tell a told
  | ok tape => exact standing_tell a told

end Cassette.Acia
