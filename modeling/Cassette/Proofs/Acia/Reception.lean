import Cassette.Proofs.Acia.Outcome

/-!
# The receive registers and what they hear

The data register, the two flags of the receive side and the interrupt depend on a few kinds of
incidents: a byte arrives, the carrier takes a level, the data register is read, the chip is reset,
or RS423 takes over the receive side.  While time passes all of them come from events on the trace:
what the tape signals, as far as it reaches the chip, and what the device on the line answers.

## Main definitions

* `Incident`, `Reception` and `Reception.after` — the registers and what changes them.
* `Moment.incident?` — the incident that an event is.
* `Hears` — the trace has grown, and the registers have followed what was heard.

## Main results

* `hears_take`, `hears_play`, `hears_pollPeer` — what passes is heard.
* `hears_act`, `Hears.advance` — so it is by the acts of the timers, and as time passes.
* `reception_written`, `reception_switched`, … — the operations.
-/

namespace Cassette.Acia

variable {ρ : Type}

/-- What the receive registers depend on. -/
inductive Incident where
  /-- A byte is delivered. -/
  | arrival (byte : UInt8)
  /-- The carrier-detect input takes a level. -/
  | carrier (level : Bool)
  /-- The data register is read. -/
  | taken
  /-- A master reset. -/
  | reset
  /-- RS423 takes over the receive side. -/
  | rs423
  deriving DecidableEq

/-- The receive registers. -/
structure Reception where
  full : Bool := false
  carrier : Bool := false
  interrupt : Bool := false
  data : UInt8 := 0
  deriving DecidableEq

/-- The registers after an incident. -/
def Reception.after (r : Reception) : Incident → Reception
  | .arrival b => { r with full := true, interrupt := true, data := b }
  | .carrier true => { r with carrier := true, interrupt := r.interrupt || !r.carrier }
  | .carrier false | .rs423 => { r with carrier := false }
  | .taken => { r with full := false, interrupt := false }
  | .reset => { carrier := true, data := r.data }

/-- The receive registers of a chip. -/
def Chip.reception (c : Chip ρ) : Reception where
  full := c.status.receiveFull
  carrier := c.status.carrier
  interrupt := c.status.interrupt
  data := c.data

/-- Two of the registers show in the status register. -/
theorem testBit_byte (s : Status) :
    s.byte.toNat.testBit 0 = s.receiveFull ∧ s.byte.toNat.testBit 7 = s.interrupt := by
  obtain ⟨receiveFull, transmitEmpty, carrier, sendHeld, interrupt⟩ := s
  revert receiveFull transmitEmpty carrier sendHeld interrupt
  decide

/-! ### Single changes -/

section

variable (c : Chip ρ)

theorem reception_setCarrier (level : Bool) :
    (c.setCarrier level).reception = c.reception.after (.carrier level) := by
  cases level with
  | false => rfl
  | true =>
    show (Chip.setCarrier c true).reception
      = { c.reception with carrier := true, interrupt := c.status.interrupt || !c.status.carrier }
    unfold Chip.setCarrier Status.setCarrier Chip.reception
    cases hcarrier : c.status.carrier <;> simp [hcarrier]

/-- The carrier of the cassette is an incident only while the cassette is selected. -/
theorem reception_cassetteCarrier (level : Bool) :
    (c.cassetteCarrier level).reception
      = if c.rs423Selected then c.reception else c.reception.after (.carrier level) := by
  unfold Chip.cassetteCarrier
  split
  · rfl
  · exact reception_setCarrier c level

theorem reception_playTone (now : Cycles) (hertz : Binary32) :
    (c.playTone now hertz).reception = c.reception := by
  unfold Chip.playTone
  split
  · rfl
  · split <;> rfl

end

/-! ### Hearing -/

/-- The incident that an event is, if it is one. -/
def Moment.incident? (rs423Selected : Bool) (m : Moment) : Option Incident :=
  match m.event with
  | .signal (.byte b) => some (.arrival b)
  | .signal (.carrier level) => if rs423Selected then none else some (.carrier level)
  | .asked _ answer => answer.map .arrival
  | _ => none

/-- What a chip hears while some moments pass. -/
def heard (rs423Selected : Bool) (moments : List Moment) : List Incident :=
  moments.filterMap (Moment.incident? rs423Selected)

/-- From `c` to `c'` the trace has grown by moments of some kind, and the receive registers have
followed what was heard of them. -/
structure Hears (kind : Moment → Prop) (c c' : Chip ρ) : Prop where
  selected : c'.rs423Selected = c.rs423Selected
  grown : ∃ moments, c'.trace = c.trace ++ moments ∧ (∀ m ∈ moments, kind m) ∧
    c'.reception = (heard c.rs423Selected moments).foldl Reception.after c.reception

namespace Hears

variable {kind kind' : Moment → Prop} {c c' c'' : Chip ρ}

/-- A change that is neither heard nor seen on the trace. -/
theorem of_eq (hselected : c'.rs423Selected = c.rs423Selected) (hmoments : c'.moments = c.moments)
    (hreception : c'.reception = c.reception) : Hears kind c c' := by
  refine ⟨hselected, [], ?_, nofun, hreception⟩
  rw [Chip.trace, hmoments, List.append_nil]
  rfl

theorem refl (c : Chip ρ) : Hears kind c c := of_eq rfl rfl rfl

/-- One event on the trace, and what is heard of it. -/
theorem of_event {m : Moment} (hkind : kind m) (hselected : c'.rs423Selected = c.rs423Selected)
    (hmoments : c'.moments = m :: c.moments)
    (hreception : c'.reception
      = (m.incident? c.rs423Selected).elim c.reception c.reception.after) : Hears kind c c' := by
  refine ⟨hselected, [m], ?_, ?_, ?_⟩
  · rw [Chip.trace, hmoments, List.reverse_cons]
    rfl
  · intro m' hm'
    rw [List.mem_singleton.mp hm']
    exact hkind
  · rw [hreception, heard, List.filterMap_cons]
    cases m.incident? c.rs423Selected <;> rfl

theorem trans (h : Hears kind c c') (h' : Hears kind c' c'') : Hears kind c c'' := by
  obtain ⟨moments, htrace, hkind, hreception⟩ := h.grown
  obtain ⟨moments', htrace', hkind', hreception'⟩ := h'.grown
  refine ⟨h'.selected.trans h.selected, moments ++ moments', ?_, ?_, ?_⟩
  · rw [htrace', htrace, List.append_assoc]
  · intro m hm
    rcases List.mem_append.mp hm with hm | hm
    · exact hkind m hm
    · exact hkind' m hm
  · rw [hreception', hreception, h.selected, heard, heard, heard, List.filterMap_append,
      List.foldl_append]

theorem foldl {α : Type} {f : Chip ρ → α → Chip ρ} (h : ∀ c x, Hears kind c (f c x)) (l : List α)
    (c : Chip ρ) : Hears kind c (l.foldl f c) := by
  induction l generalizing c with
  | nil => exact refl c
  | cons x l ih => exact (h c x).trans (ih (f c x))

theorem mono (h : Hears kind c c') (hle : ∀ m, kind m → kind' m) : Hears kind' c c' := by
  obtain ⟨moments, htrace, hkind, hreception⟩ := h.grown
  exact ⟨h.selected, moments, htrace, fun m hm => hle m (hkind m hm), hreception⟩

end Hears

/-! ### The tape and the line -/

/-- The device on the line is asked. -/
def Event.IsAsked : Event → Prop
  | .asked .. => True
  | _ => False

/-- On cycle `now`, and not by the line. -/
def Moment.OfTape (now : Cycles) (m : Moment) : Prop := m.cycle = now ∧ ¬ m.event.IsAsked

section

variable (now : Cycles) (c : Chip ρ)

theorem hears_playTone (hertz : Binary32) : Hears (Moment.OfTape now) c (c.playTone now hertz) := by
  unfold Chip.playTone
  split
  · exact .refl c
  · split
    · exact .of_event (m := ⟨now, .tone hertz⟩) ⟨rfl, id⟩ rfl rfl rfl
    · exact .of_event (m := ⟨now, .mute⟩) ⟨rfl, id⟩ rfl rfl rfl

theorem hears_take (s : Tape.Signal) : Hears (Moment.OfTape now) c (c.take now s) := by
  have hkind : Moment.OfTape now ⟨now, .signal s⟩ := ⟨rfl, id⟩
  cases s with
  | byte b => exact .of_event hkind rfl rfl rfl
  | carrier level =>
    have hselected : (c.take now (.carrier level)).rs423Selected = c.rs423Selected :=
      congrArg (·.rs423Selected) (standing_take now c (.carrier level))
    refine .of_event hkind hselected ?_ ?_
    · change (Chip.cassetteCarrier (c.record now _) level).moments = _
      unfold Chip.cassetteCarrier
      split <;> rfl
    · change (Chip.cassetteCarrier (c.record now _) level).reception = _
      rw [reception_cassetteCarrier]
      show (if c.rs423Selected = true then c.reception else c.reception.after (.carrier level))
        = Option.elim (if c.rs423Selected then none else some (Incident.carrier level)) _ _
      cases c.rs423Selected <;> rfl
  | tone hertz =>
    have hrecorded : Hears (Moment.OfTape now) c (c.record now (.signal (.tone hertz))) :=
      .of_event hkind rfl rfl rfl
    exact hrecorded.trans (hears_playTone now _ hertz)
  | note notice => exact .of_event hkind rfl rfl rfl

theorem hears_play (unit : Tape.Played Tape) : Hears (Moment.OfTape now) c (c.play now unit) := by
  refine (Hears.foldl (hears_take now) unit.signals c).trans ?_
  unfold Chip.play
  split
  · next delay _ => exact .of_event (m := ⟨now, .pause delay⟩) ⟨rfl, id⟩ rfl rfl rfl
  · next e _ =>
    exact .of_event (m := ⟨now, .note (.ejecting unit.tape.format e)⟩) ⟨rfl, id⟩ rfl rfl rfl

theorem hears_pollTape : Hears (Moment.OfTape now) c (c.pollTape now).2 := by
  unfold Chip.pollTape
  split
  · exact .foldl (hears_play now) _ c
  · exact .refl c

theorem hears_pollPeer [SerialPeer ρ] : Hears (·.cycle = now) c (c.pollPeer now) := by
  unfold Chip.pollPeer
  split
  · exact .refl c
  · next peer _ =>
    dsimp only
    cases hanswer : (SerialPeer.offer peer (Control.requestToSend c.control)).1 with
    | none =>
      exact .of_event (m := ⟨now, .asked (Control.requestToSend c.control) none⟩) rfl rfl rfl rfl
    | some b =>
      exact .of_event (m := ⟨now, .asked (Control.requestToSend c.control) (some b)⟩) rfl rfl rfl
        rfl

/-! ### Time -/

/-- On a cycle of some kind, and by the line only if RS423 is selected. -/
def Moment.Passes (when : Cycles → Prop) (rs423Selected : Bool) (m : Moment) : Prop :=
  when m.cycle ∧ (m.event.IsAsked → rs423Selected = true)

/-- A timer that fires is heard on its cycle. -/
theorem hears_act [SerialPeer ρ] (timer : Timer) :
    Hears (Moment.Passes (· = now) c.rs423Selected) c (timer.act now c).2 := by
  cases timer with
  | transmit => exact .of_eq rfl rfl rfl
  | tape => exact (hears_pollTape now c).mono fun m hm => ⟨hm.1, fun hasked => absurd hasked hm.2⟩
  | rs423 =>
    rw [Timer.act_rs423]
    split
    · next hselected => exact (hears_pollPeer now c).mono fun m hm => ⟨hm, fun _ => hselected⟩
    · exact .refl c

end

/-- As time passes, what passes is heard.  If it is of a kind of cycles that every delay keeps, on
which all pending timers are due, it happens on such cycles. -/
theorem Hears.advance [SerialPeer ρ] {s s' : Scheduler Timer} {c c' : Chip ρ} (h : Timed s c)
    (when : Cycles → Prop) (hdelay : ∀ cycle delay, when cycle → when (cycle + delay))
    (hdue : ∀ e ∈ s.agenda, when e.due) {limit : Nat} {target : Cycles}
    (hadv : Scheduler.advance Timer.routine limit target s c = .ok (s', c')) :
    Hears (Moment.Passes (fun cycle => when cycle ∧ cycle ≤ target) c.rs423Selected) c c' := by
  let kind := Moment.Passes (fun cycle => when cycle ∧ cycle ≤ target) c.rs423Selected
  have hact {s : Scheduler Timer} {d : Chip ρ} {e : Entry} {rest : List Entry} {timer : Timer}
      (_ : Timed s d) (hP : (∀ f ∈ s.agenda, when f.due) ∧ Hears kind c d)
      (hs : s.agenda = e :: rest) (_ : e.task = timer.id) (hlate : ¬ target < e.due) :
      (∀ f ∈ ((Timer.renew (s.takeOut e) e.task (timer.act e.due d).1).putBack e.task
          timer).agenda, when f.due) ∧ Hears kind c (timer.act e.due d).2 := by
    obtain ⟨hdue, hheard⟩ := hP
    have hnow : when e.due := hdue e (by rw [hs]; exact List.mem_cons_self)
    have hrest : ∀ f ∈ (s.takeOut e).agenda, when f.due := fun f hf =>
      hdue f (List.mem_of_mem_tail hf)
    constructor
    · -- a timer that is armed again is due a delay after the cycle on which it fired
      intro f hf
      rcases Timer.mem_agenda_renew (show f ∈ (Timer.renew (s.takeOut e) e.task _).agenda from hf)
        with hf | ⟨delay, hfdue⟩
      · exact hrest f hf
      · rw [hfdue]
        exact hdelay e.due delay hnow
    · refine hheard.trans ((hears_act e.due d timer).mono fun m hm => ?_)
      obtain ⟨hcycle, hasked⟩ := hm
      rw [hheard.selected] at hasked
      refine ⟨?_, hasked⟩
      rw [hcycle]
      exact ⟨hnow, Nat.not_lt.mp hlate⟩
  obtain ⟨s₁, ⟨-, hheard⟩, -⟩ := h.induct
    (fun s d => (∀ f ∈ s.agenda, when f.due) ∧ Hears kind c d) hact ⟨hdue, .refl c⟩ hadv
  exact hheard

/-! ### Operations -/

section

variable (a : Acia ρ)

theorem reception_read (address : UInt16) :
    (a.read address).2.chip.reception
      = if isData address then a.chip.reception.after .taken else a.chip.reception := by
  unfold read
  split <;> rfl

/-- Bit 0 of a status read shows that the receive register is full, and bit 7 the interrupt that is
requested. -/
theorem testBit_read {address : UInt16} (h : isData address = false) :
    (a.read address).1.toNat.testBit 0 = a.chip.status.receiveFull ∧
      (a.read address).1.toNat.testBit 7 = a.chip.interruptActive := by
  rw [read, h, if_neg Bool.false_ne_true]
  exact testBit_byte a.chip.shownStatus

theorem reception_written [SerialPeer ρ] (address : UInt16) (value : UInt8) :
    (a.written address value).chip.reception
      = if isData address then a.chip.reception
        else if Control.isReset value then a.chip.reception.after .reset
        else a.chip.reception := by
  unfold written
  split
  · change (Chip.transmit a.now a.chip.fill value).reception = _
    unfold Chip.transmit
    split <;> rfl
  · split <;> rfl

theorem reception_noise (e : Event) : (a.noise e).chip.reception = a.chip.reception := by
  unfold noise
  split <;> rfl

/-- The motor takes the carrier of the cassette with it when it stops. -/
theorem reception_switched (on : Bool) :
    (a.switched on).chip.reception
      = if a.chip.motorOn && !on && !a.chip.rs423Selected
        then a.chip.reception.after (.carrier false) else a.chip.reception := by
  unfold switched
  split
  · next hon => rw [hon, Bool.and_not_self, Bool.false_and, if_neg Bool.false_ne_true]
  · next hne =>
    cases on with
    | true =>
      rw [Bool.not_true, Bool.and_false, Bool.false_and, if_neg Bool.false_ne_true]
      exact reception_noise (a.relayed true) .motorOn
    | false =>
      have hmotor : a.chip.motorOn = true := by simpa using hne
      rw [if_neg Bool.false_ne_true, reception_noise, hmotor]
      show (Chip.cassetteCarrier ((a.relayed false).chip.playTone a.now .zero) false).reception = _
      rw [reception_cassetteCarrier, reception_playTone,
        (hears_playTone a.now (a.relayed false).chip .zero).selected]
      show (if a.chip.rs423Selected = true then a.chip.reception
          else a.chip.reception.after (.carrier false))
        = if (true && !false && !a.chip.rs423Selected) = true then _ else _
      cases a.chip.rs423Selected <;> rfl

theorem reception_rated (rate : UInt32) : (a.rated rate).chip.reception = a.chip.reception := by
  unfold rated
  split <;> rfl

theorem reception_tell (told : List Tape.Notice) :
    (a.tell told).chip.reception = a.chip.reception := by
  unfold tell
  induction told generalizing a with
  | nil => rfl
  | cons notice told ih => exact ih _

theorem reception_opened (image : List Tape.Notice × Except Tape.Error Tape) :
    (a.opened image).chip.reception = a.chip.reception := by
  obtain ⟨told, opened⟩ := image
  cases opened <;> exact reception_tell a told

theorem reception_rewind : a.rewind.chip.reception = a.chip.reception := by
  unfold rewind
  split <;> rfl

end

end Cassette.Acia
