import Cassette.Proofs.Acia.Outcome
import Cassette.Proofs.Acia.Reel

/-!
# What is heard of the cassette

Three parties follow the cassette: whatever plays its tones, whatever makes the noise of the motor
relay, and the chip itself, which hears the tape.  The relay is heard only when the motor is
switched, and then once.  The tones and the tape are heard only while the motor runs, but for the
silence that is asked for when it stops.

## Main definitions

* `Chip.tones`, `Chip.relays` — what the tone generator and the motor noise have been told so far.
* `Sounding` and `Chip.sounding` — all that has been heard of the cassette, with who hears it.
* `Sounding.switched` — what is heard when the motor is switched.
* `Chip.Plays` — from one state of the chip to another without a switch.

## Main results

* `sounding_switched` — switching the motor.
* `sounding_opened`, `sounding_rewind`, … — the other operations are not heard.
* `plays_act`, `plays_advance` — the passing of time, of which nothing is heard while the motor
  is off.
-/

namespace Cassette.Acia

variable {ρ : Type}

/-- A call to the tone generator. -/
def Event.isTone : Event → Bool
  | .tone _ | .mute => true
  | _ => false

/-- A call to the motor noise: the motor starts, or it stops. -/
def Event.relay? : Event → Option Bool
  | .motorOn => some true
  | .motorOff => some false
  | _ => none

/-- The calls to the tone generator so far, in order. -/
def Chip.tones (c : Chip ρ) : List Moment := c.trace.filter (·.event.isTone)

/-- The calls to the motor noise so far, in order. -/
def Chip.relays (c : Chip ρ) : List Bool := c.trace.filterMap (·.event.relay?)

/-- What has been heard of the cassette so far, and who hears it. -/
structure Sounding where
  motorOn : Bool
  toneAttached : Bool
  noiseAttached : Bool
  tones : List Moment
  relays : List Bool
  /-- What the tapes in the deck have had to say to the chip. -/
  deck : List Moment

/-- What has been heard of the cassette so far, and who hears it. -/
def Chip.sounding (c : Chip ρ) : Sounding where
  motorOn := c.motorOn
  toneAttached := c.toneAttached
  noiseAttached := c.noiseAttached
  tones := c.tones
  relays := c.relays
  deck := c.deckMoments

theorem sounding_record (now : Cycles) (c : Chip ρ) (e : Event) :
    (c.record now e).sounding
      = { c.sounding with
          tones := c.tones ++ if e.isTone then [⟨now, e⟩] else []
          relays := c.relays ++ e.relay?.toList
          deck := c.deckMoments ++ if e.ofDeck then [⟨now, e⟩] else [] } := by
  have htones : (c.record now e).tones = c.tones ++ if e.isTone then [⟨now, e⟩] else [] :=
    filter_trace_record Event.isTone now c e
  have hrelays : (c.record now e).relays = c.relays ++ e.relay?.toList := by
    unfold Chip.relays Chip.trace Chip.record
    rw [List.reverse_cons, List.filterMap_append]
    cases h : e.relay? <;> simp [h]
  unfold Chip.sounding
  rw [htones, hrelays, deckMoments_record]
  rfl

/-- An event that nobody hears who follows the cassette. -/
theorem sounding_record_of_not (now : Cycles) (c : Chip ρ) {e : Event} (htone : e.isTone = false)
    (hrelay : e.relay? = none) (hdeck : e.ofDeck = false) :
    (c.record now e).sounding = c.sounding := by
  rw [sounding_record, htone, hrelay, hdeck]
  simp [Chip.sounding]

/-! ### Switching the motor -/

namespace Sounding

/-- The tone generator falls silent. -/
def mute (k : Sounding) (now : Cycles) : Sounding :=
  { k with tones := k.tones ++ if k.toneAttached then [⟨now, .mute⟩] else [] }

/-- The relay of the motor moves. -/
def relay (k : Sounding) (on : Bool) : Sounding :=
  { k with relays := k.relays ++ if k.noiseAttached then [on] else [] }

/-- What is heard when the motor is switched: nothing, if it is as it was; else the relay moves, and
when the motor stops the tone generator falls silent before that. -/
def switched (k : Sounding) (now : Cycles) (on : Bool) : Sounding :=
  if on = k.motorOn then k
  else if on then { k with motorOn := true }.relay true
  else ({ k with motorOn := false }.mute now).relay false

section

variable (k : Sounding) (now : Cycles) (on : Bool)

@[simp] theorem motorOn_switched : (k.switched now on).motorOn = on := by
  unfold switched
  split
  · next h => exact h.symm
  · cases on <;> rfl

@[simp] theorem toneAttached_switched : (k.switched now on).toneAttached = k.toneAttached := by
  unfold switched
  split
  · rfl
  · cases on <;> rfl

@[simp] theorem noiseAttached_switched : (k.switched now on).noiseAttached = k.noiseAttached := by
  unfold switched
  split
  · rfl
  · cases on <;> rfl

@[simp] theorem deck_switched : (k.switched now on).deck = k.deck := by
  unfold switched
  split
  · rfl
  · cases on <;> rfl

/-- The relay moves once for every change of the motor, and not otherwise. -/
theorem relays_switched (hnoise : k.noiseAttached = true) :
    (k.switched now on).relays = k.relays ++ if on = k.motorOn then [] else [on] := by
  unfold switched
  by_cases h : on = k.motorOn
  · rw [if_pos h, if_pos h, List.append_nil]
  · rw [if_neg h, if_neg h]
    cases on <;> simp [relay, mute, hnoise]

/-- A tone generator is silent as long as the motor is off, if it was silent before. -/
theorem tones_switched (htone : k.toneAttached = true) :
    (k.switched now on).tones
      = k.tones ++ if k.motorOn && !on then [⟨now, .mute⟩] else [] := by
  unfold switched
  cases hmotor : k.motorOn <;> cases on <;> simp [relay, mute, htone]

end

end Sounding

theorem sounding_cassetteCarrier (c : Chip ρ) (level : Bool) :
    (c.cassetteCarrier level).sounding = c.sounding := by
  unfold Chip.cassetteCarrier
  split <;> rfl

theorem sounding_noise (a : Acia ρ) {e : Event} {on : Bool} (htone : e.isTone = false)
    (hrelay : e.relay? = some on) (hdeck : e.ofDeck = false) :
    (a.noise e).chip.sounding = a.chip.sounding.relay on := by
  unfold noise Sounding.relay
  cases h : a.chip.noiseAttached with
  | false => simp [Chip.sounding, h]
  | true =>
    refine (sounding_record a.now a.chip e).trans ?_
    rw [htone, hrelay, hdeck]
    simp [Chip.sounding, h]

/-- At zero hertz the tone generator falls silent. -/
theorem sounding_playTone_zero (now : Cycles) (c : Chip ρ) :
    (c.playTone now .zero).sounding = c.sounding.mute now := by
  have hzero : Binary32.zero.isPositive = false := by decide
  unfold Chip.playTone Sounding.mute
  rw [hzero]
  cases h : c.toneAttached with
  | false => simp [Chip.sounding, h]
  | true =>
    refine (sounding_record now c .mute).trans ?_
    simp [Chip.sounding, h, Event.isTone, Event.relay?, Event.ofDeck]

theorem sounding_relayed (a : Acia ρ) (on : Bool) :
    (a.relayed on).chip.sounding = { a.chip.sounding with motorOn := on } :=
  sounding_record_of_not a.now { a.chip with motorOn := on } rfl rfl rfl

theorem sounding_switched (a : Acia ρ) (on : Bool) :
    (a.switched on).chip.sounding = a.chip.sounding.switched a.now on := by
  have hmotor : a.chip.sounding.motorOn = a.chip.motorOn := rfl
  unfold switched Sounding.switched
  rw [hmotor]
  split
  · rfl
  · split
    · rw [← sounding_relayed]
      exact sounding_noise (a.relayed true) rfl rfl rfl
    · refine (sounding_noise _ rfl rfl rfl).trans ?_
      rw [← sounding_relayed]
      exact congrArg (Sounding.relay · false)
        ((sounding_cassetteCarrier _ false).trans (sounding_playTone_zero a.now _))

/-! ### The other operations -/

theorem sounding_tell (a : Acia ρ) (told : List Tape.Notice) :
    (a.tell told).chip.sounding = a.chip.sounding := by
  unfold tell
  induction told generalizing a with
  | nil => rfl
  | cons notice told ih => exact (ih _).trans (sounding_record_of_not a.now a.chip rfl rfl rfl)

theorem sounding_read (a : Acia ρ) (address : UInt16) :
    (a.read address).2.chip.sounding = a.chip.sounding := by
  unfold read
  split <;> rfl

theorem sounding_select (c : Chip ρ) (selected : Bool) :
    (c.select selected).sounding = c.sounding := by
  unfold Chip.select
  dsimp only
  split <;> rfl

theorem sounding_rated (a : Acia ρ) (rate : UInt32) :
    (a.rated rate).chip.sounding = a.chip.sounding := by
  unfold rated
  split <;> rfl

theorem sounding_loaded (a : Acia ρ) (tape : Tape) :
    (a.loaded tape).chip.sounding = a.chip.sounding :=
  sounding_record_of_not a.now a.chip rfl rfl rfl

theorem sounding_opened (a : Acia ρ) (image : List Tape.Notice × Except Tape.Error Tape) :
    (a.opened image).chip.sounding = a.chip.sounding := by
  obtain ⟨told, opened⟩ := image
  cases opened with
  | error e => exact sounding_tell a told
  | ok tape => exact (sounding_loaded _ tape).trans (sounding_tell a told)

theorem sounding_rewind (a : Acia ρ) : a.rewind.chip.sounding = a.chip.sounding := by
  unfold rewind
  split
  · rfl
  · exact sounding_record_of_not a.now a.chip rfl rfl rfl

theorem sounding_transmit [SerialPeer ρ] (now : Cycles) (c : Chip ρ) (b : UInt8) :
    (c.transmit now b).sounding = c.sounding := by
  unfold Chip.transmit
  split
  · next peer _ _ =>
    exact sounding_record_of_not now { c with peer := some (SerialPeer.hear peer b) }
      (e := .transmitted b) rfl rfl rfl
  · rfl

theorem sounding_pollPeer [SerialPeer ρ] (now : Cycles) (c : Chip ρ) :
    (c.pollPeer now).sounding = c.sounding := by
  unfold Chip.pollPeer
  split
  · rfl
  · next peer _ =>
    dsimp only
    have hasked (peer : ρ) (answer : Option UInt8) :
        (({ c with peer := some peer } : Chip ρ).record now
          (.asked (Control.requestToSend c.control) answer)).sounding = c.sounding :=
      sounding_record_of_not now { c with peer := some peer } rfl rfl rfl
    cases (SerialPeer.offer peer (Control.requestToSend c.control)).1 with
    | none => exact hasked _ none
    | some b => exact hasked _ (some b)

theorem sounding_written [SerialPeer ρ] (a : Acia ρ) (address : UInt16) (value : UInt8) :
    (a.written address value).chip.sounding = a.chip.sounding := by
  unfold written
  split
  · exact sounding_transmit a.now a.chip.fill value
  · split <;> rfl

/-! ### The passing of time -/

/-- From one state of the chip to another while nobody switches anything: the relay is not heard,
and with the motor off nothing is heard at all, and the tape stays where it is. -/
structure Chip.Plays (c c' : Chip ρ) : Prop where
  motorOn : c'.motorOn = c.motorOn
  toneAttached : c'.toneAttached = c.toneAttached
  noiseAttached : c'.noiseAttached = c.noiseAttached
  relays : c'.relays = c.relays
  tones : c.tones <+: c'.tones
  still : c.motorOn = false → c'.sounding = c.sounding ∧ c'.deck = c.deck

namespace Chip.Plays

variable {c c' c'' : Chip ρ}

/-- Nothing is heard, and while the motor runs the tape may be another. -/
theorem of_same (h : c'.sounding = c.sounding) (hdeck : c.motorOn = false → c'.deck = c.deck) :
    c.Plays c' where
  motorOn := congrArg Sounding.motorOn h
  toneAttached := congrArg Sounding.toneAttached h
  noiseAttached := congrArg Sounding.noiseAttached h
  relays := congrArg Sounding.relays h
  tones := by
    have htones : c'.tones = c.tones := congrArg Sounding.tones h
    simp only [htones, List.prefix_rfl]
  still := fun hoff => ⟨h, hdeck hoff⟩

theorem refl (c : Chip ρ) : c.Plays c := .of_same rfl fun _ => rfl

theorem trans (h : c.Plays c') (h' : c'.Plays c'') : c.Plays c'' where
  motorOn := h'.motorOn.trans h.motorOn
  toneAttached := h'.toneAttached.trans h.toneAttached
  noiseAttached := h'.noiseAttached.trans h.noiseAttached
  relays := h'.relays.trans h.relays
  tones := h.tones.trans h'.tones
  still := fun hmotor => by
    obtain ⟨hsounding, hdeck⟩ := h.still hmotor
    obtain ⟨hsounding', hdeck'⟩ := h'.still (h.motorOn.trans hmotor)
    exact ⟨hsounding'.trans hsounding, hdeck'.trans hdeck⟩

end Chip.Plays

section

variable (now : Cycles) {c : Chip ρ} (hmotor : c.motorOn = true)

include hmotor

/-- While the motor runs anything may be heard but the relay. -/
theorem plays_record {e : Event} (h : e.relay? = none) : c.Plays (c.record now e) where
  motorOn := rfl
  toneAttached := rfl
  noiseAttached := rfl
  relays := by
    have hrelays := congrArg Sounding.relays (sounding_record now c e)
    rw [h] at hrelays
    exact hrelays.trans (List.append_nil _)
  tones := by
    rw [show (c.record now e).tones = _ from congrArg Sounding.tones (sounding_record now c e)]
    exact List.prefix_append _ _
  still := fun hoff => absurd (hmotor.symm.trans hoff) Bool.false_ne_true.symm

theorem plays_playTone (hertz : Binary32) : c.Plays (c.playTone now hertz) := by
  unfold Chip.playTone
  split
  · exact .refl c
  · split
    · exact plays_record now hmotor rfl
    · exact plays_record now hmotor rfl

theorem plays_take (s : Tape.Signal) : c.Plays (c.take now s) := by
  have hsignal : c.Plays (c.record now (.signal s)) := plays_record now hmotor rfl
  refine hsignal.trans ?_
  cases s with
  | byte b => exact .of_same rfl fun _ => rfl
  | carrier level =>
    exact .of_same (sounding_cassetteCarrier _ level) fun _ =>
      (sameDeck_cassetteCarrier _ level).deck
  | tone hertz => exact plays_playTone now (hsignal.motorOn.trans hmotor) hertz
  | note notice => exact .refl _

/-- The end of a unit of work, with which the tape in the deck may be another. -/
theorem plays_ending {deck : Option Tape} {error : Option Tape.Error} {e : Event}
    (h : e.relay? = none) :
    c.Plays (({ c with deck, deckError := error } : Chip ρ).record now e) :=
  (plays_record now hmotor h).trans
    (.of_same rfl fun hoff => absurd (hmotor.symm.trans hoff) Bool.false_ne_true.symm)

theorem plays_play (unit : Tape.Played Tape) : c.Plays (c.play now unit) := by
  have hsignals (signals : List Tape.Signal) : c.Plays (signals.foldl (Chip.take now) c) := by
    induction signals generalizing c with
    | nil => exact .refl c
    | cons s signals ih =>
      have hfirst := plays_take now hmotor s
      exact hfirst.trans (ih (hfirst.motorOn.trans hmotor))
  unfold Chip.play
  cases unit.delay with
  | ok delay => exact (hsignals _).trans (plays_ending now ((hsignals _).motorOn.trans hmotor) rfl)
  | error e => exact (hsignals _).trans (plays_ending now ((hsignals _).motorOn.trans hmotor) rfl)

end

theorem plays_pollTape (now : Cycles) (c : Chip ρ) : c.Plays (c.pollTape now).2 := by
  by_cases h : c.motorOn = true
  · have hunits (units : List (Tape.Played Tape)) : c.Plays (units.foldl (Chip.play now) c) := by
      induction units generalizing c with
      | nil => exact .refl c
      | cons unit units ih =>
        have hfirst := plays_play now h unit
        exact hfirst.trans (ih _ (hfirst.motorOn.trans h))
    cases hdeck : c.deck with
    | none =>
      rw [pollTape_of_idle now (Or.inr hdeck)]
      exact .refl c
    | some tape =>
      rw [pollTape_of_running now h hdeck]
      exact hunits _
  · rw [pollTape_of_idle now (Or.inl (eq_false_of_ne_true h))]
    exact .refl c

variable [SerialPeer ρ]

theorem plays_act (timer : Timer) (now : Cycles) (c : Chip ρ) : c.Plays (timer.act now c).2 := by
  cases timer with
  | transmit => exact .of_same rfl fun _ => rfl
  | tape => exact plays_pollTape now c
  | rs423 =>
    rw [Timer.act_rs423]
    split
    · exact .of_same (sounding_pollPeer now c) fun _ => (sameDeck_pollPeer now c).deck
    · exact .refl c

/-- While time passes nobody switches anything. -/
theorem plays_advance {s s' : Scheduler Timer} {c c' : Chip ρ} (h : Timed s c) {limit : Nat}
    {target : Cycles} (hadv : Scheduler.advance Timer.routine limit target s c = .ok (s', c')) :
    c.Plays c' := by
  obtain ⟨-, hplays, -⟩ := h.induct (fun _ c₁ => c.Plays c₁)
    (fun {_ c e _ timer} _ hplays _ _ _ => hplays.trans (plays_act timer e.due c))
    (Chip.Plays.refl c) hadv
  exact hplays

end Cassette.Acia
