import Cassette.Proofs.Acia.Outcome
import Cassette.Proofs.Scheduler.Beside

/-!
# The receiver

Of the transmitter the rest of the chip sees nothing.  Neither the transmit register nor its timer
has any part in what the other timers do, in when they are due or in which of two comes first on
one cycle, although every timer that is armed takes a turn.

## Main definitions

* `Timer.others` — what is pending besides the transmit timer, in the order of firing.
* `Receiver` — the chip without the transmit register, and what is pending.
* `Receiver.Until` — the firings of the other timers up to some cycle.
* `Agree` — two chips that differ in their transmitters alone.

## Main results

* `others_renew`, `others_keep`, `others_fire` — what is pending after a command and after a firing.
* `fill_act` — no act looks at the transmit register.
* `Receiver.Until.unique`, `receiver_advance` — the passing of time is determined.
* `Agree.written`, `Agree.selected`, … — the operations.
-/

namespace Cassette.Acia

variable {ρ : Type}

/-! ### What is pending -/

namespace Timer

/-- What is pending besides the transmit timer, in the order of firing. -/
def others (s : Scheduler Timer) : List Entry :=
  (s.agenda.filter (·.task ≠ Timer.transmit.id)).map Entry.unturned

variable {s s' : Scheduler Timer}

theorem others_eq (s : Scheduler Timer) : others s = s.beside Timer.transmit.id := rfl

theorem others_dismiss (s : Scheduler Timer) (task : Handle) :
    others (s.dismiss task) = (others s).filter (·.task ≠ task) :=
  s.beside_dismiss _ task

theorem others_dismiss_transmit (s : Scheduler Timer) :
    others (s.dismiss Timer.transmit.id) = others s :=
  s.beside_dismiss_self _

theorem others_place_transmit (s : Scheduler Timer) (delay : Cycles) :
    others (s.place Timer.transmit.id delay) = others s :=
  s.beside_place_self _ delay

theorem others_place (h : s.Orderly) {timer : Timer} (htimer : timer ≠ .transmit)
    (delay : Cycles) :
    others (s.place timer.id delay)
      = Scheduler.enter ⟨s.epoch + delay, 0, timer.id⟩ (others s) :=
  h.beside_place (mt id_inj.mp htimer) delay

/-- The other timers are as pending as they are. -/
theorem due?_others (s : Scheduler Timer) {timer : Timer} (htimer : timer ≠ .transmit) :
    timer.due? s = ((others s).find? (·.task = timer.id)).map (·.due) := by
  rw [others_eq, s.find?_beside (mt id_inj.mp htimer), Option.map_map]
  rfl

/-- Some entries with `task` armed afresh on cycle `now`, if there is a delay. -/
def rearmed (now : Cycles) (task : Handle) (entries : List Entry) : Option Cycles → List Entry
  | none => entries
  | some delay => Scheduler.enter ⟨now + delay, 0, task⟩ (entries.filter (·.task ≠ task))

theorem others_renew (h : s.Orderly) {timer : Timer} (htimer : timer ≠ .transmit)
    (delay? : Option Cycles) :
    others (renew s timer.id delay?) = rearmed s.epoch timer.id (others s) delay? := by
  cases delay? with
  | none => rfl
  | some delay =>
    rw [renew, others_place (h.dismiss _) htimer, others_dismiss]
    rfl

/-! ### Commands -/

theorem orderly_keep (h : s.Orderly) (hbodies : s.bodies = bodies) (timer : Timer) (run : Bool)
    (delay : Cycles) : (keep s timer run delay).Orderly := by
  unfold keep
  split
  · split
    · exact h
    · exact orderly_renew h (owns_id hbodies timer) _
  · exact h.dismiss _

theorem others_keep_transmit (s : Scheduler Timer) (run : Bool) (delay : Cycles) :
    others (keep s .transmit run delay) = others s := by
  unfold keep
  split
  · split
    · rfl
    · exact (others_place_transmit _ delay).trans (others_dismiss_transmit s)
  · exact others_dismiss_transmit s

/-- What is pending after a command to another timer does not depend on the transmit timer. -/
theorem others_keep (hs : s.Orderly) (hs' : s'.Orderly) (h : others s = others s')
    (hepoch : s.epoch = s'.epoch) {timer : Timer} (htimer : timer ≠ .transmit) (run : Bool)
    (delay : Cycles) : others (keep s timer run delay) = others (keep s' timer run delay) := by
  have hdue : timer.due? s = timer.due? s' := by
    rw [due?_others s htimer, due?_others s' htimer, h]
  unfold keep
  rw [hdue]
  split
  · split
    · exact h
    · rw [others_renew hs htimer, others_renew hs' htimer, h, hepoch]
  · rw [others_dismiss, others_dismiss, h]

/-! ### Firings -/

theorem others_cons {e : Entry} {rest : List Entry} (hs : s.agenda = e :: rest) {timer : Timer}
    (htask : e.task = timer.id) :
    others s = if timer = .transmit then others (s.takeOut e)
      else e.unturned :: others (s.takeOut e) := by
  rw [others_eq, Scheduler.beside_cons hs, htask]
  simp only [id_inj]
  rfl

/-- A firing of another timer takes its entry off, and arms it afresh if there is a delay. -/
theorem others_fire (h : s.Orderly) {e : Entry} {timer : Timer} (htask : e.task = timer.id)
    (htimer : timer ≠ .transmit) (delay? : Option Cycles) :
    others ((renew (s.takeOut e) e.task delay?).putBack e.task timer)
      = rearmed e.due e.task (others (s.takeOut e)) delay? := by
  change others (renew (s.takeOut e) e.task delay?) = _
  rw [htask]
  exact others_renew (h.takeOut e) htimer delay?

end Timer

/-! ### The transmit register -/

section

variable (now : Cycles) (c : Chip ρ)

@[simp] theorem fill_fill : c.fill.fill = c.fill := rfl

theorem fill_setCarrier (level : Bool) : (c.setCarrier level).fill = c.fill.setCarrier level := by
  have hstatus : c.fill.status.setCarrier level
      = { c.status.setCarrier level with transmitEmpty := false } := by
    unfold Status.setCarrier Chip.fill
    split
    · rfl
    · dsimp only
      split <;> rfl
  unfold Chip.setCarrier
  rw [hstatus]
  rfl

theorem fill_cassetteCarrier (level : Bool) :
    (c.cassetteCarrier level).fill = c.fill.cassetteCarrier level := by
  have hselected : c.fill.rs423Selected = c.rs423Selected := rfl
  unfold Chip.cassetteCarrier
  rw [hselected]
  split
  · rfl
  · exact fill_setCarrier c level

theorem fill_playTone (hertz : Binary32) :
    (c.playTone now hertz).fill = c.fill.playTone now hertz := by
  have hattached : c.fill.toneAttached = c.toneAttached := rfl
  unfold Chip.playTone
  rw [hattached]
  split
  · rfl
  · split <;> rfl

theorem fill_take (s : Tape.Signal) : (c.take now s).fill = c.fill.take now s := by
  cases s with
  | byte b => rfl
  | carrier level => exact fill_cassetteCarrier _ level
  | tone hertz => exact fill_playTone now _ hertz
  | note notice => rfl

theorem fill_play (unit : Tape.Played Tape) : (c.play now unit).fill = c.fill.play now unit := by
  have hsignals : unit.signals.foldl (Chip.take now) c.fill
      = (unit.signals.foldl (Chip.take now) c).fill :=
    List.foldl_hom Chip.fill fun c s => (fill_take now c s).symm
  unfold Chip.play
  rw [hsignals]
  dsimp only
  split <;> rfl

/-- A turn of the deck does not look at the transmit register. -/
theorem fill_pollTape : c.fill.pollTape now = ((c.pollTape now).1, (c.pollTape now).2.fill) := by
  have hmotor : c.fill.motorOn = c.motorOn := rfl
  have hdeck : c.fill.deck = c.deck := rfl
  unfold Chip.pollTape
  rw [hmotor, hdeck]
  split
  · exact congrArg (Prod.mk _) (List.foldl_hom Chip.fill fun c unit => (fill_play now c unit).symm)
  · rfl

variable [SerialPeer ρ]

theorem fill_pollPeer : (c.pollPeer now).fill = c.fill.pollPeer now := by
  have hpeer : c.fill.peer = c.peer := rfl
  unfold Chip.pollPeer
  rw [hpeer]
  split
  · rfl
  · next peer _ =>
    change Chip.fill (Option.elim (SerialPeer.offer peer (Control.requestToSend c.control)).1 _ _)
      = Option.elim (SerialPeer.offer peer (Control.requestToSend c.control)).1 _ _
    cases (SerialPeer.offer peer (Control.requestToSend c.control)).1 <;> rfl

theorem fill_transmit (b : UInt8) : (c.transmit now b).fill = c.fill.transmit now b := by
  have hselected : c.fill.rs423Selected = c.rs423Selected := rfl
  have hpeer : c.fill.peer = c.peer := rfl
  unfold Chip.transmit
  rw [hselected, hpeer]
  split <;> rfl

/-- No act of another timer looks at the transmit register. -/
theorem fill_act {timer : Timer} (htimer : timer ≠ .transmit) :
    timer.act now c.fill = ((timer.act now c).1, (timer.act now c).2.fill) := by
  cases timer with
  | transmit => exact absurd rfl htimer
  | tape => exact fill_pollTape now c
  | rs423 =>
    have hselected : c.fill.rs423Selected = c.rs423Selected := rfl
    rw [Timer.act_rs423, Timer.act_rs423, hselected, ← fill_pollPeer]
    split <;> rfl

end

/-! ### Time -/

/-- The chip without the transmit register, and what is pending besides its timer. -/
structure Receiver (ρ : Type) where
  chip : Chip ρ
  pending : List Entry

namespace Receiver

/-- The receiver of some timers and a chip. -/
def of (s : Scheduler Timer) (c : Chip ρ) : Receiver ρ := ⟨c.fill, Timer.others s⟩

variable [SerialPeer ρ]

/-- The receiver after `timer`, which comes before the `rest`, has fired. -/
def fire (r : Receiver ρ) (timer : Timer) (e : Entry) (rest : List Entry) : Receiver ρ :=
  ⟨(timer.act e.due r.chip).2, Timer.rearmed e.due e.task rest (timer.act e.due r.chip).1⟩

/-- The firings up to `target`. -/
inductive Until (target : Cycles) : Receiver ρ → Receiver ρ → Prop where
  | idle {r : Receiver ρ} (h : ∀ e ∈ r.pending.head?, target < e.due) : Until target r r
  | fire {r r' : Receiver ρ} {timer : Timer} {e : Entry} {rest : List Entry}
      (hr : r.pending = e :: rest) (htask : e.task = timer.id) (hdue : ¬ target < e.due)
      (hrest : Until target (r.fire timer e rest) r') : Until target r r'

/-- The firings are determined. -/
theorem Until.unique {target : Cycles} {r first second : Receiver ρ} (h : Until target r first)
    (h' : Until target r second) : first = second := by
  induction h with
  | idle hidle =>
    cases h' with
    | idle => rfl
    | fire hr _ hdue _ => exact absurd (hidle _ (by rw [hr]; rfl)) hdue
  | fire hr htask hdue _ ih =>
    cases h' with
    | idle hidle => exact absurd (hidle _ (by rw [hr]; rfl)) hdue
    | fire hr' htask' _ hrest =>
      obtain ⟨rfl, rfl⟩ := List.cons.inj (hr.symm.trans hr')
      obtain rfl := Timer.id_inj.mp (htask.symm.trans htask')
      exact ih hrest

end Receiver

section

variable [SerialPeer ρ]

/-- An act of the transmit timer is nothing to the receiver, and every other one is the next of its
own firings. -/
theorem receiver_act {s : Scheduler Timer} {c : Chip ρ} {e : Entry} {rest : List Entry}
    {timer : Timer} {target : Cycles} (horderly : s.Orderly) (hs : s.agenda = e :: rest)
    (htask : e.task = timer.id) (hdue : ¬ target < e.due) {r : Receiver ρ}
    (h : Receiver.Until target (.of ((Timer.renew (s.takeOut e) e.task
      (timer.act e.due c).1).putBack e.task timer) (timer.act e.due c).2) r) :
    Receiver.Until target (.of s c) r := by
  have hpending := Timer.others_cons hs htask
  by_cases htimer : timer = .transmit
  · rw [if_pos htimer] at hpending
    subst htimer
    unfold Receiver.of
    rw [hpending]
    exact h
  · rw [if_neg htimer] at hpending
    refine .fire hpending htask hdue ?_
    have hfire : (Receiver.of s c).fire timer e.unturned (Timer.others (s.takeOut e))
        = .of ((Timer.renew (s.takeOut e) e.task (timer.act e.due c).1).putBack e.task timer)
          (timer.act e.due c).2 := by
      unfold Receiver.fire Receiver.of
      rw [Timer.others_fire horderly htask htimer]
      change Receiver.mk (timer.act e.due c.fill).2
        (Timer.rearmed e.due e.task _ (timer.act e.due c.fill).1) = _
      rw [fill_act e.due c htimer]
    rw [hfire]
    exact h

/-- The passing of time is to the receiver its own firings. -/
theorem receiver_advance {s s' : Scheduler Timer} {c c' : Chip ρ} (htimed : Timed s c)
    {limit : Nat} {target : Cycles}
    (hadv : Scheduler.advance Timer.routine limit target s c = .ok (s', c')) :
    Receiver.Until target (.of s c) (.of s' c') := by
  -- what the receiver comes to from an act on is what it comes to from the start
  obtain ⟨s₁, hreceiver, hs'⟩ := htimed.induct
    (fun s₁ c₁ => ∀ r, Receiver.Until target (.of s₁ c₁) r → Receiver.Until target (.of s c) r)
    (fun htimed h hs htask hdue r hr => h r (receiver_act htimed.orderly hs htask hdue hr))
    (fun _ hr => hr) hadv
  have hlater := (htimed.of_advance hadv).2.2
  subst hs'
  refine hreceiver _ (.idle fun e he => ?_)
  obtain ⟨f, hf, rfl⟩ := List.mem_map.mp (List.mem_of_mem_head? he)
  exact hlater f (List.mem_filter.mp hf).1

end

/-! ### Operations -/

/-- The two chips differ in their transmitters alone, and the timers of both are in order. -/
structure Agree (a d : Acia ρ) : Prop where
  chip : a.chip.fill = d.chip.fill
  others : Timer.others a.timers = Timer.others d.timers
  now : a.now = d.now
  transmitDelay : a.transmitDelay = d.transmitDelay
  left : a.InPlace ∧ a.timers.Orderly
  right : d.InPlace ∧ d.timers.Orderly

/-- What goes on besides the transmit register does not look at it. -/
theorem fill_comm {f : Chip ρ → Chip ρ} (h : ∀ c, (f c).fill = f c.fill) (c : Chip ρ) :
    (f c).fill = (f c.fill).fill := by
  rw [h, h, fill_fill]

theorem fill_select (c : Chip ρ) (selected : Bool) :
    (c.select selected).fill = c.fill.select selected := by
  cases selected <;> rfl

/-- The transmit register is bit 1 of the status register. -/
theorem byte_veiled (s : Status) : s.byte &&& 0xFD = { s with transmitEmpty := false }.byte := by
  obtain ⟨receiveFull, transmitEmpty, carrier, sendHeld, interrupt⟩ := s
  revert receiveFull transmitEmpty carrier sendHeld interrupt
  decide

/-- While the cassette is selected nothing is sent. -/
theorem transmit_of_cassette [SerialPeer ρ] {c : Chip ρ} (h : c.rs423Selected = false)
    (now : Cycles) (b : UInt8) : c.transmit now b = c := by
  unfold Chip.transmit
  rw [h]

namespace Agree

theorem refl {a : Acia ρ} (h : a.InPlace ∧ a.timers.Orderly) : Agree a a :=
  ⟨rfl, rfl, rfl, rfl, h, h⟩

variable {a d e : Acia ρ}

theorem symm (h : Agree a d) : Agree d a :=
  ⟨h.chip.symm, h.others.symm, h.now.symm, h.transmitDelay.symm, h.right, h.left⟩

theorem trans (h : Agree a d) (h' : Agree d e) : Agree a e :=
  ⟨h.chip.trans h'.chip, h.others.trans h'.others, h.now.trans h'.now,
    h.transmitDelay.trans h'.transmitDelay, h.left, h'.right⟩

variable (h : Agree a d)

include h

theorem deck : a.chip.deck = d.chip.deck := (congrArg Chip.deck h.chip :)

theorem motorOn : a.chip.motorOn = d.chip.motorOn := (congrArg Chip.motorOn h.chip :)

theorem onChip {f : Chip ρ → Chip ρ} (hf : ∀ c, (f c).fill = (f c.fill).fill) :
    Agree (a.onChip f) (d.onChip f) := by
  refine ⟨?_, h.others, h.now, h.transmitDelay, h.left, h.right⟩
  change (f a.chip).fill = (f d.chip).fill
  rw [hf a.chip, h.chip, ← hf d.chip]

theorem record (e : Event) : Agree (a.record e) (d.record e) := by
  unfold Acia.record
  rw [h.now]
  exact h.onChip fun _ => rfl

theorem noise (e : Event) : Agree (a.noise e) (d.noise e) := by
  have hattached : a.chip.noiseAttached = d.chip.noiseAttached :=
    (congrArg Chip.noiseAttached h.chip :)
  unfold Acia.noise
  rw [hattached]
  split
  · exact h.record e
  · exact h

theorem tell (told : List Tape.Notice) : Agree (a.tell told) (d.tell told) := by
  unfold Acia.tell
  induction told generalizing a d with
  | nil => exact h
  | cons notice told ih => exact ih (h.record _)

theorem keep {timer : Timer} (htimer : timer ≠ .transmit) (run : Bool) (delay : Cycles) :
    Agree (a.keep timer run delay) (d.keep timer run delay) where
  chip := h.chip
  others := Timer.others_keep h.left.2 h.right.2 h.others h.now htimer run delay
  now := by rw [now_keep, now_keep, h.now]
  transmitDelay := h.transmitDelay
  left := ⟨h.left.1.keep timer run delay, Timer.orderly_keep h.left.2 h.left.1 timer run delay⟩
  right := ⟨h.right.1.keep timer run delay, Timer.orderly_keep h.right.2 h.right.1 timer run delay⟩

/-- A byte that goes into the transmit register is nothing to the rest of the chip. -/
theorem filled (run : Bool) (delay : Cycles) :
    Agree ((a.onChip Chip.fill).keep .transmit run delay) d where
  chip := h.chip
  others := (Timer.others_keep_transmit a.timers run delay).trans h.others
  now := (now_keep ..).trans h.now
  transmitDelay := h.transmitDelay
  left := ⟨InPlace.keep (a := a.onChip Chip.fill) h.left.1 .transmit run delay,
    Timer.orderly_keep h.left.2 h.left.1 .transmit run delay⟩
  right := h.right

theorem reset : Agree a.reset d.reset := h.onChip fun _ => rfl

theorem read (address : UInt16) : Agree (a.read address).2 (d.read address).2 := by
  unfold Acia.read
  split
  · exact h.onChip (f := fun c => { c with status := c.status.acknowledge }) fun _ => rfl
  · exact h

theorem selected (selected : Bool) : Agree (a.selected selected) (d.selected selected) := by
  have htime : (a.chip.select selected).fill.byteTime = (d.chip.select selected).fill.byteTime := by
    rw [fill_select, fill_select, h.chip]
  change (a.chip.select selected).byteTime = (d.chip.select selected).byteTime at htime
  unfold Acia.selected
  rw [htime]
  exact (h.onChip (fill_comm (fill_select · selected))).keep (by decide) _ _

theorem setCarrier (level : Bool) : Agree (a.setCarrier level) (d.setCarrier level) :=
  h.onChip (fill_comm (fill_setCarrier · level))

theorem rated (rate : UInt32) : Agree (a.rated rate) (d.rated rate) := by
  unfold Acia.rated
  split
  · exact h
  · exact h.onChip fun _ => rfl

theorem relayed (on : Bool) : Agree (a.relayed on) (d.relayed on) :=
  Agree.record (h.onChip fun _ => rfl) _

theorem switched (on : Bool) : Agree (a.switched on) (d.switched on) := by
  have hnoise := (h.relayed true).noise .motorOn
  unfold Acia.switched
  rw [h.motorOn, h.now, hnoise.deck]
  split
  · exact h
  · split
    · exact hnoise.keep (by decide) _ _
    · have hsilent := (h.relayed false).onChip (fill_comm (fill_playTone d.now · .zero))
      exact ((hsilent.keep (show Timer.tape ≠ .transmit by decide) false 1).onChip
        (fill_comm (fill_cassetteCarrier · false))).noise .motorOff

theorem loaded (tape : Tape) : Agree (a.loaded tape) (d.loaded tape) := by
  unfold Acia.loaded
  rw [h.motorOn]
  exact (((h.record _).onChip fun _ => rfl).keep (by decide) _ _).keep (by decide) _ _

theorem opened (image : List Tape.Notice × Except Tape.Error Tape) :
    Agree (a.opened image) (d.opened image) := by
  obtain ⟨told, opened⟩ := image
  cases opened with
  | error e => exact h.tell told
  | ok tape => exact (h.tell told).loaded tape

theorem unloaded : Agree a.unloaded d.unloaded :=
  Agree.onChip (h.keep (show Timer.tape ≠ .transmit by decide) false 1) fun _ => rfl

theorem rewind : Agree a.rewind d.rewind := by
  unfold Acia.rewind
  rw [h.deck]
  split
  · exact h
  · exact Agree.onChip (h.record _) fun _ => rfl

/-- Apart from the transmit register a program reads the same in both. -/
theorem veiled_read (address : UInt16) :
    (if isData address then (a.read address).1 else (a.read address).1 &&& 0xFD)
      = if isData address then (d.read address).1 else (d.read address).1 &&& 0xFD := by
  unfold Acia.read
  split
  · exact (congrArg Chip.data h.chip :)
  · have hshown := congrArg (fun c => (Chip.shownStatus c).byte) h.chip
    rw [byte_veiled, byte_veiled]
    exact hshown

variable [SerialPeer ρ]

theorem written (address : UInt16) (value : UInt8) :
    Agree (a.written address value) (d.written address value) := by
  unfold Acia.written
  split
  · rw [h.now]
    exact ((h.filled true a.transmitDelay).symm.filled true d.transmitDelay).symm.onChip
      (fill_comm (fill_transmit d.now · value))
  · split
    · exact h.reset
    · exact h.onChip fun _ => rfl

/-- While the cassette is selected, a byte that is written is nothing to the rest of the chip. -/
theorem sent (hcassette : a.chip.rs423Selected = false) {address : UInt16}
    (haddress : isData address = true) (value : UInt8) : Agree (a.written address value) d := by
  have hlost : a.written address value
      = (a.onChip Chip.fill).keep .transmit true a.transmitDelay := by
    have hchip : a.chip.fill.transmit a.now value = a.chip.fill :=
      transmit_of_cassette (c := a.chip.fill) hcassette a.now value
    unfold Acia.written
    rw [if_pos haddress]
    exact congrArg (fun c => Acia.mk c _ _) hchip
  rw [hlost]
  exact h.filled true a.transmitDelay

end Agree

end Cassette.Acia
