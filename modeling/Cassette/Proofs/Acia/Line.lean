import Cassette.Proofs.Acia.Outcome

/-!
# The RS423 side of the chip

While RS423 is selected, the receive side of the chip depends on the line and the program alone,
apart from one thing: a byte that the tape plays arrives all the same.  Everything else that the
cassette does leaves the line as it is, whenever it happens, and so between two bytes of the tape
the passing of time is nothing to the line but its own turns.

## Main definitions

* `Chip.line`, `Line` — the chip without the cassette and the transmit register, and the timer of
  the line.
* `Line.Until` — the turns of the line up to some cycle.
* `ByBytes` — what changes on the line has changed by a byte of the tape.

## Main results

* `byBytes_pollTape` — a turn of the deck.
* `Line.Until.unique` — the turns of the line are determined.
* `line_advance` — the passing of time, when the tape plays no byte.
* `line_written`, `line_selected`, … — the operations.
-/

namespace Cassette.Acia

variable {ρ : Type}

/-- The chip without the cassette, the transmit register and the trace. -/
def Chip.line (c : Chip ρ) : Chip ρ where
  status := { c.status with transmitEmpty := false }
  control := c.control
  data := c.data
  clock := c.clock
  rs423Selected := c.rs423Selected
  receiveRate := c.receiveRate
  peer := c.peer

/-- The RS423 side of the chip. -/
structure Line (ρ : Type) where
  chip : Chip ρ
  /-- When the line has its next turn, if it is selected. -/
  due? : Option Cycles

/-- The RS423 side of some timers and a chip. -/
def Line.of (s : Scheduler Timer) (c : Chip ρ) : Line ρ := ⟨c.line, Timer.rs423.due? s⟩

/-- The bytes that the tapes in the deck have played. -/
def Chip.bytes (c : Chip ρ) : List UInt8 := c.calls.filterMap Tape.Signal.byte?

theorem SameDeck.bytes {c c' : Chip ρ} (h : SameDeck c c') : c'.bytes = c.bytes := by
  unfold Chip.bytes
  rw [h.calls]

/-! ### The tape -/

/-- Bytes have been played between `c` and `c'`, or the line is as it was. -/
structure ByBytes (c c' : Chip ρ) : Prop where
  grows : c.bytes <+: c'.bytes
  line : c'.bytes = c.bytes → c'.line = c.line

theorem ByBytes.of_eq {c c' : Chip ρ} (hbytes : c'.bytes = c.bytes) (hline : c'.line = c.line) :
    ByBytes c c' := ⟨hbytes ▸ List.prefix_refl _, fun _ => hline⟩

theorem ByBytes.refl (c : Chip ρ) : ByBytes c c := .of_eq rfl rfl

/-- Bytes are never unplayed. -/
theorem bytes_eq_of_le {first second third : List UInt8} (h : first <+: second)
    (h' : second <+: third) (heq : third = first) : second = first := by
  subst heq
  exact h'.eq_of_length (Nat.le_antisymm h'.length_le h.length_le)

theorem ByBytes.trans {c c' c'' : Chip ρ} (h : ByBytes c c') (h' : ByBytes c' c'') :
    ByBytes c c'' := by
  refine ⟨h.grows.trans h'.grows, fun hbytes => ?_⟩
  have hfirst : c'.bytes = c.bytes := bytes_eq_of_le h.grows h'.grows hbytes
  exact (h'.line (hbytes.trans hfirst.symm)).trans (h.line hfirst)

theorem line_playTone (now : Cycles) (c : Chip ρ) (hertz : Binary32) :
    (c.playTone now hertz).line = c.line := by
  unfold Chip.playTone
  split
  · rfl
  · split <;> rfl

/-- The carrier of the cassette does not reach a chip that listens to RS423. -/
theorem cassetteCarrier_of_selected {c : Chip ρ} (h : c.rs423Selected = true) (level : Bool) :
    c.cassetteCarrier level = c := if_pos h

section

variable {c : Chip ρ} (now : Cycles) (h : c.rs423Selected = true)

include h

theorem byBytes_take (s : Tape.Signal) : ByBytes c (c.take now s) := by
  obtain ⟨-, -, hcalls⟩ := take_spec now c s
  have hbytes : (c.take now s).bytes = c.bytes ++ [s].filterMap Tape.Signal.byte? := by
    unfold Chip.bytes
    rw [hcalls, List.filterMap_append]
    cases s <;> rfl
  refine ⟨⟨_, hbytes.symm⟩, fun heq => ?_⟩
  cases s with
  | byte b =>
    -- the byte has been added to those that have been played
    rw [heq] at hbytes
    have hlength := congrArg List.length hbytes
    simp [Tape.Signal.byte?] at hlength
  | carrier level =>
    change (Chip.cassetteCarrier (c.record now _) level).line = c.line
    rw [cassetteCarrier_of_selected (c := c.record now _) h]
    rfl
  | tone hertz => exact line_playTone now _ hertz
  | note notice => rfl

theorem byBytes_play (unit : Tape.Played Tape) : ByBytes c (c.play now unit) := by
  have hsignals (signals : List Tape.Signal) : ByBytes c (signals.foldl (Chip.take now) c) := by
    induction signals generalizing c with
    | nil => exact .refl c
    | cons s signals ih =>
      have hselected : (c.take now s).rs423Selected = true :=
        (congrArg (·.rs423Selected) (standing_take now c s)).trans h
      exact (byBytes_take now h s).trans (ih hselected)
  refine (hsignals unit.signals).trans ?_
  have hbytes (e : Event) (he : e.call? = none) (c' : Chip ρ) :
      (c'.record now e).bytes = c'.bytes :=
    congrArg (List.filterMap Tape.Signal.byte?) (calls_record_of_none now c' he)
  unfold Chip.play
  dsimp only
  split
  · exact .of_eq (hbytes _ rfl _) rfl
  · exact .of_eq (hbytes _ rfl _) rfl

/-- A turn of the deck changes the line by its bytes alone. -/
theorem byBytes_pollTape : ByBytes c (c.pollTape now).2 := by
  have hunits (units : List (Tape.Played Tape)) : ByBytes c (units.foldl (Chip.play now) c) := by
    induction units generalizing c with
    | nil => exact .refl c
    | cons unit units ih =>
      have hselected : (c.play now unit).rs423Selected = true :=
        (congrArg (·.rs423Selected) (standing_play now c unit)).trans h
      exact (byBytes_play now h unit).trans (ih hselected)
  unfold Chip.pollTape
  split
  · exact hunits _
  · exact .refl c

end

/-! ### The line -/

/-- A turn of the line looks at the line alone. -/
theorem line_pollPeer [SerialPeer ρ] (now : Cycles) (c : Chip ρ) :
    (c.pollPeer now).line = (c.line.pollPeer now).line := by
  have hpeer : c.line.peer = c.peer := rfl
  unfold Chip.pollPeer
  rw [hpeer]
  cases c.peer with
  | none => rfl
  | some peer =>
    dsimp only
    change _ = Chip.line
      (Option.elim (SerialPeer.offer peer (Control.requestToSend c.control)).1 _ _)
    cases (SerialPeer.offer peer (Control.requestToSend c.control)).1 <;> rfl

theorem byteTime_line (c : Chip ρ) : c.line.byteTime = c.byteTime := rfl

namespace Line

variable [SerialPeer ρ]

/-- The line after its turn on cycle `now`. -/
def turn (l : Line ρ) (now : Cycles) : Line ρ :=
  ⟨(l.chip.pollPeer now).line, some (now + (l.chip.pollPeer now).byteTime)⟩

theorem turn_of (s : Scheduler Timer) (c : Chip ρ) (now : Cycles) :
    (Line.of s c).turn now
      = ⟨(c.pollPeer now).line, some (now + (c.pollPeer now).byteTime)⟩ := by
  have htime : (c.line.pollPeer now).byteTime = (c.pollPeer now).byteTime := by
    rw [← byteTime_line (c.line.pollPeer now), ← line_pollPeer, byteTime_line]
  unfold turn
  change Line.mk (c.line.pollPeer now).line _ = _
  rw [← line_pollPeer]
  exact congrArg (fun time => Line.mk (c.pollPeer now).line (some (now + time))) htime

/-- The turns of the line up to `target`. -/
inductive Until (target : Cycles) : Line ρ → Line ρ → Prop where
  | idle {l : Line ρ} (h : ∀ due ∈ l.due?, target < due) : Until target l l
  | turn {l l' : Line ρ} {due : Cycles} (hdue : l.due? = some due) (h : ¬ target < due)
      (hrest : Until target (l.turn due) l') : Until target l l'

/-- The turns of the line are determined. -/
theorem Until.unique {target : Cycles} {l first second : Line ρ} (h : Until target l first)
    (h' : Until target l second) : first = second := by
  induction h with
  | idle hidle =>
    cases h' with
    | idle => rfl
    | turn hdue hlate => exact absurd (hidle _ hdue) hlate
  | turn hdue hlate _ ih =>
    cases h' with
    | idle hidle => exact absurd (hidle _ hdue) hlate
    | turn hdue' _ hrest =>
      obtain rfl := Option.some.inj (hdue.symm.trans hdue')
      exact ih hrest

end Line

/-! ### Time -/

section

variable [SerialPeer ρ]

/-- An act of a timer that plays no byte is a turn of the line, or nothing to it. -/
theorem byBytes_act {s : Scheduler Timer} {c : Chip ρ} {e : Entry} {rest : List Entry}
    {timer : Timer} {target : Cycles} (h : c.rs423Selected = true) (horderly : s.Orderly)
    (hs : s.agenda = e :: rest) (htask : e.task = timer.id) (hdue : ¬ target < e.due) :
    c.bytes <+: (timer.act e.due c).2.bytes ∧
      ((timer.act e.due c).2.bytes = c.bytes →
        ∀ l, Line.Until target (.of ((Timer.renew (s.takeOut e) e.task
            (timer.act e.due c).1).putBack e.task timer) (timer.act e.due c).2) l →
          Line.Until target (.of s c) l) := by
  unfold Line.of
  rw [Timer.due?_fire horderly hs htask]
  cases timer with
  | transmit => exact ⟨List.prefix_refl _, fun _ l hl => hl⟩
  | tape =>
    have hturn := byBytes_pollTape e.due h
    refine ⟨hturn.grows, fun hbytes l hl => ?_⟩
    rw [Timer.act_tape, hturn.line hbytes] at hl
    exact hl
  | rs423 =>
    rw [Timer.act_rs423, if_pos h]
    refine ⟨(sameDeck_pollPeer e.due c).bytes ▸ List.prefix_refl _, fun _ l hl => ?_⟩
    -- this is the next of the line's own turns
    refine .turn (Timer.due?_of_head hs htask) hdue ?_
    change Line.Until target ((Line.of s c).turn e.due) l
    rw [Line.turn_of]
    exact hl

/-- When the tape plays no byte, the passing of time is to the line its own turns. -/
theorem line_advance {s s' : Scheduler Timer} {c c' : Chip ρ} (h : c.rs423Selected = true)
    (htimed : Timed s c) {limit : Nat} {target : Cycles}
    (hadv : Scheduler.advance Timer.routine limit target s c = .ok (s', c')) :
    c'.rs423Selected = true ∧ c.bytes <+: c'.bytes ∧
      (c'.bytes = c.bytes → Line.Until target (.of s c) (.of s' c')) := by
  -- as long as no byte is played, what the line comes to is what it comes to from the start
  obtain ⟨s₁, ⟨hselected, hgrows, hline⟩, hs'⟩ := htimed.induct
    (fun s₁ c₁ => c₁.standing.rs423Selected = true ∧ c.bytes <+: c₁.bytes ∧
      (c₁.bytes = c.bytes → ∀ l, Line.Until target (.of s₁ c₁) l → Line.Until target (.of s c) l))
    (fun {s₁ c₁ e rest timer} htimed h₁ hs htask hdue => by
      obtain ⟨hselected, hgrows, hline⟩ := h₁
      obtain ⟨hgrows', hline'⟩ := byBytes_act hselected htimed.orderly hs htask hdue
      refine ⟨by rw [standing_act]; exact hselected, hgrows.trans hgrows', fun hbytes l hl => ?_⟩
      have hfirst := bytes_eq_of_le hgrows hgrows' hbytes
      exact hline hfirst l (hline' (hbytes.trans hfirst.symm) l hl))
    ⟨h, List.prefix_refl _, fun _ _ hl => hl⟩ hadv
  refine ⟨hselected, hgrows, fun hbytes => hline hbytes _ ?_⟩
  have hlater := (htimed.of_advance hadv).2.2
  rw [hs'] at hlater ⊢
  refine .idle fun due hdue => ?_
  obtain ⟨e, he, rfl⟩ := Timer.exists_entry hdue
  exact hlater e he

end

/-! ### Operations -/

/-- The RS423 side of the chip. -/
def line (a : Acia ρ) : Line ρ := .of a.timers a.chip

/-- What becomes of the line depends on the line alone. -/
def LineLocal (f : Chip ρ → Chip ρ) : Prop := ∀ c, (f c).line = (f c.line).line

theorem lineLocal_setCarrier (level : Bool) :
    LineLocal (fun c : Chip ρ => c.setCarrier level) := by
  intro c
  change Chip.line { c with status := c.status.setCarrier level }
    = Chip.line { c.line with status := c.line.status.setCarrier level }
  unfold Status.setCarrier
  change _ = Chip.line { c.line with
    status := if !level then _ else if c.status.carrier then _ else _ }
  cases level with
  | false => rfl
  | true => cases c.status.carrier <;> rfl

theorem lineLocal_select (selected : Bool) :
    LineLocal (fun c : Chip ρ => c.select selected) := by
  intro c
  cases selected <;> rfl

theorem lineLocal_transmit [SerialPeer ρ] (now : Cycles) (b : UInt8) :
    LineLocal (fun c : Chip ρ => c.transmit now b) := by
  have hsent {c : Chip ρ} {peer : ρ} (hselected : c.rs423Selected = true)
      (hpeer : c.peer = some peer) : (c.transmit now b).line
        = Chip.line { c with peer := some (SerialPeer.hear peer b) } := by
    unfold Chip.transmit
    rw [hselected, hpeer]
    rfl
  have hlost {c : Chip ρ} (h : c.rs423Selected = false ∨ c.peer = none) :
      c.transmit now b = c := by
    unfold Chip.transmit
    split
    · next hselected hpeer => simp [hselected, hpeer] at h
    · rfl
  intro c
  dsimp only
  -- without RS423 or without a device the byte is lost
  by_cases h : c.rs423Selected = false ∨ c.peer = none
  · rw [hlost h, hlost (c := c.line) h]
    rfl
  · obtain ⟨hselected, hpeer⟩ := not_or.mp h
    obtain ⟨peer, hpeer⟩ := Option.ne_none_iff_exists'.mp hpeer
    have hselected := eq_true_of_ne_false hselected
    rw [hsent hselected hpeer, hsent (c := c.line) hselected hpeer]
    rfl

section

variable {a d : Acia ρ}

theorem line_keep (a : Acia ρ) {timer : Timer} (h : timer ≠ .rs423) (run : Bool) (delay : Cycles) :
    (a.keep timer run delay).line = a.line := by
  unfold line Line.of keep
  rw [Timer.due?_keep, if_neg h]

/-- What leaves the line alone. -/
theorem line_onChip {f : Chip ρ → Chip ρ} (h : (f a.chip).line = a.chip.line) :
    (a.onChip f).line = a.line := by
  unfold line Line.of onChip
  rw [h]

theorem line_noise (a : Acia ρ) (e : Event) : (a.noise e).line = a.line := by
  unfold noise
  split <;> rfl

theorem line_tell (a : Acia ρ) (told : List Tape.Notice) : (a.tell told).line = a.line := by
  unfold tell
  induction told generalizing a with
  | nil => rfl
  | cons notice told ih => exact ih _

theorem line_rewind (a : Acia ρ) : a.rewind.line = a.line := by
  unfold rewind
  split <;> rfl

theorem line_loaded (a : Acia ρ) (tape : Tape) : (a.loaded tape).line = a.line := by
  unfold loaded
  rw [line_keep _ (by decide), line_keep _ (by decide)]
  rfl

theorem line_opened (a : Acia ρ) (image : List Tape.Notice × Except Tape.Error Tape) :
    (a.opened image).line = a.line := by
  obtain ⟨told, opened⟩ := image
  cases opened with
  | error e => exact line_tell a told
  | ok tape => exact (line_loaded (a.tell told) tape).trans (line_tell a told)

theorem line_unloaded (a : Acia ρ) : a.unloaded.line = a.line := by
  unfold unloaded
  rw [line_onChip (f := ({ · with deck := none })) rfl, line_keep _ (by decide)]

/-- While RS423 is selected, the motor is nothing to the line. -/
theorem line_switched (h : a.chip.rs423Selected = true) (on : Bool) :
    (a.switched on).line = a.line := by
  unfold switched
  split
  · rfl
  · split
    · rw [line_keep _ (by decide), line_noise]
      rfl
    · have hselected : ((a.relayed false).chip.playTone a.now .zero).rs423Selected = true :=
        (congrArg (·.rs423Selected) (standing_playTone a.now (a.relayed false).chip .zero)).trans h
      rw [line_noise, line_onChip, line_keep _ (by decide), line_onChip (line_playTone ..)]
      · rfl
      · change (Chip.cassetteCarrier ((a.relayed false).chip.playTone a.now .zero) false).line = _
        rw [cassetteCarrier_of_selected hselected]
        rfl

variable (h : a.line = d.line)

include h

theorem line_local {f : Chip ρ → Chip ρ} (hf : LineLocal f) :
    (a.onChip f).line = (d.onChip f).line := by
  have hchip : a.chip.line = d.chip.line := congrArg Line.chip h
  have hdue : Timer.rs423.due? a.timers = Timer.rs423.due? d.timers := congrArg Line.due? h
  unfold line Line.of onChip
  dsimp only
  rw [hf a.chip, hchip, ← hf d.chip, hdue]

theorem line_written [SerialPeer ρ] (hnow : a.now = d.now) (address : UInt16) (value : UInt8) :
    (a.written address value).line = (d.written address value).line := by
  unfold written
  split
  · have hfilled : (a.onChip Chip.fill).line = (d.onChip Chip.fill).line :=
      line_local h fun _ => rfl
    rw [hnow]
    refine line_local ?_ (lineLocal_transmit d.now value)
    rw [line_keep _ (by decide), line_keep _ (by decide)]
    exact hfilled
  · split
    · exact line_local h (f := fun c => { c with status := c.status.reset }) fun _ => rfl
    · exact line_local h (f := ({ · with control := value })) fun _ => rfl

theorem line_selected (hnow : a.now = d.now) (selected : Bool) :
    (a.selected selected).line = (d.selected selected).line := by
  have hselect := line_local h (lineLocal_select selected)
  -- the time of a character is the line's own too
  have htime : (a.chip.select selected).byteTime = (d.chip.select selected).byteTime :=
    congrArg (·.chip.byteTime) hselect
  have hdue : Timer.rs423.due? a.timers = Timer.rs423.due? d.timers := congrArg Line.due? h
  have hchip : (a.chip.select selected).line = (d.chip.select selected).line :=
    congrArg Line.chip hselect
  change Line.mk (a.chip.select selected).line (Timer.rs423.due? (Timer.keep ..))
    = Line.mk (d.chip.select selected).line (Timer.rs423.due? (Timer.keep ..))
  rw [Timer.due?_keep, Timer.due?_keep, hchip, htime]
  change Line.mk _ (if _ then if _ then (Timer.rs423.due? a.timers).or (some (a.now + _)) else _
    else _) = _
  rw [hdue, hnow]
  rfl

theorem line_rated (rate : UInt32) : (a.rated rate).line = (d.rated rate).line := by
  unfold rated
  split
  · exact h
  · exact line_local h (f := ({ · with receiveRate := rate })) fun _ => rfl

theorem line_read (address : UInt16) : (a.read address).2.line = (d.read address).2.line := by
  unfold read
  split
  · exact line_local h (f := fun c => { c with status := c.status.acknowledge }) fun _ => rfl
  · exact h

end

end Cassette.Acia
