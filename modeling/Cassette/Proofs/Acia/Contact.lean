import Cassette.Proofs.Acia.Outcome
import Cassette.Proofs.Acia.Visits

/-!
# The contact of the chip and the device on the line

The passing of time is nothing to the line but its own visits, whatever the deck and the
transmitter do meanwhile, and every operation of the chip is to the line one of a few: the
selection moves, a register or the rate is set, or a byte is sent.

## Main definitions

* `Contact.select`, `Contact.rated`, `Contact.send` — the contact after an operation.
* `Acia.contact` — the contact of a chip with its timers.

## Main results

* `contact_advance` — the passing of time is to the contact its own visits.
* `contact_written`, `contact_selected`, `contact_switched`, … — the operations.
-/

namespace Cassette.Acia

variable {ρ : Type}

/-! ### Time -/

section

variable (s : Scheduler Timer) (now : Cycles) (c : Chip ρ)

theorem contact_record {e : Event} (h : e.isOnLine = false) :
    Contact.of s (c.record now e) = Contact.of s c := by
  have hpassed : (c.record now e).passed = c.passed := by
    rw [passed_record, h, if_neg Bool.false_ne_true, List.append_nil]
  unfold Contact.of
  rw [hpassed]
  rfl

theorem contact_cassetteCarrier (level : Bool) :
    Contact.of s (c.cassetteCarrier level) = Contact.of s c := by
  unfold Chip.cassetteCarrier
  split <;> rfl

theorem contact_playTone (hertz : Binary32) :
    Contact.of s (c.playTone now hertz) = Contact.of s c := by
  unfold Chip.playTone
  split
  · rfl
  · split
    · exact contact_record s now c rfl
    · exact contact_record s now c rfl

theorem contact_take (signal : Tape.Signal) :
    Contact.of s (c.take now signal) = Contact.of s c := by
  have hrecord := contact_record s now c (e := .signal signal) rfl
  cases signal with
  | byte b => exact hrecord
  | carrier level => exact (contact_cassetteCarrier s _ level).trans hrecord
  | tone hertz => exact (contact_playTone s now _ hertz).trans hrecord
  | note notice => exact hrecord

theorem contact_play (unit : Tape.Played Tape) :
    Contact.of s (c.play now unit) = Contact.of s c := by
  have hsignals : Contact.of s (unit.signals.foldl (Chip.take now) c) = Contact.of s c := by
    induction unit.signals generalizing c with
    | nil => rfl
    | cons signal signals ih => exact (ih _).trans (contact_take s now c signal)
  unfold Chip.play
  split
  · exact (contact_record s now _ rfl).trans hsignals
  · exact (contact_record s now _ rfl).trans hsignals

/-- A turn of the deck is nothing to the contact. -/
theorem contact_pollTape : Contact.of s (c.pollTape now).2 = Contact.of s c := by
  have hunits (units : List (Tape.Played Tape)) :
      Contact.of s (units.foldl (Chip.play now) c) = Contact.of s c := by
    induction units generalizing c with
    | nil => rfl
    | cons unit units ih => exact (ih _).trans (contact_play s now c unit)
  unfold Chip.pollTape
  split
  · exact hunits _
  · rfl

variable [SerialPeer ρ]

/-- A turn of the line, after which its timer is due when the time of a character is over. -/
theorem contact_pollPeer {s' : Scheduler Timer}
    (hdue : Timer.rs423.due? s' = some (now + (c.pollPeer now).byteTime)) :
    Contact.of s' (c.pollPeer now) = (Contact.of s c).turn now := by
  have hpassed : (c.pollPeer now).passed
      = c.passed ++ (c.peer.map fun peer => ⟨now, (Contact.of s c).question peer⟩).toList := by
    unfold Chip.pollPeer
    cases c.peer with
    | none => exact (List.append_nil _).symm
    | some peer =>
      dsimp only
      cases hanswer : (SerialPeer.offer peer (Control.requestToSend c.control)).1 with
      | none =>
        refine (passed_record now _ _).trans ?_
        unfold Contact.question Contact.of
        dsimp only [Option.map_some]
        rw [hanswer]
        rfl
      | some b =>
        refine (passed_record now _ _).trans ?_
        unfold Contact.question Contact.of
        dsimp only [Option.map_some]
        rw [hanswer]
        rfl
  have hpeer : (c.pollPeer now).peer = c.peer.map (Contact.of s c).asked := by
    unfold Chip.pollPeer
    cases hpeer : c.peer with
    | none => exact hpeer
    | some peer =>
      dsimp only
      cases (SerialPeer.offer peer (Control.requestToSend c.control)).1 <;> rfl
  have hsame : (c.pollPeer now).clock = c.clock ∧ (c.pollPeer now).control = c.control ∧
      (c.pollPeer now).rs423Selected = c.rs423Selected ∧
      (c.pollPeer now).receiveRate = c.receiveRate := by
    unfold Chip.pollPeer
    cases c.peer with
    | none => exact ⟨rfl, rfl, rfl, rfl⟩
    | some peer =>
      dsimp only
      cases (SerialPeer.offer peer (Control.requestToSend c.control)).1 <;>
        exact ⟨rfl, rfl, rfl, rfl⟩
  obtain ⟨hclock, hcontrol, hselected, hrate⟩ := hsame
  have htime : (c.pollPeer now).byteTime = (Contact.of s c).byteTime := by
    unfold Chip.byteTime
    rw [hclock, hcontrol, hrate]
    rfl
  unfold Contact.of at hpassed hpeer htime ⊢
  rw [hdue, htime, hpassed, hpeer, hclock, hcontrol, hselected, hrate]
  rfl

end

section

variable [SerialPeer ρ] {s s' : Scheduler Timer} {c c' : Chip ρ}

/-- An act of the timer of the line is a turn, and every other one is nothing to the contact. -/
theorem contact_act {e : Entry} {rest : List Entry} {timer : Timer} (horderly : s.Orderly)
    (hline : (Timer.rs423.due? s).isSome = c.rs423Selected) (hs : s.agenda = e :: rest)
    (htask : e.task = timer.id) :
    Contact.of ((Timer.renew (s.takeOut e) e.task (timer.act e.due c).1).putBack e.task timer)
        (timer.act e.due c).2
      = if timer = .rs423 then (Contact.of s c).turn e.due else Contact.of s c := by
  have hdue := Timer.due?_fire horderly hs htask (timer.act e.due c).1 .rs423
  have hsame (d : Chip ρ) (htimer : timer ≠ .rs423) :
      Contact.of ((Timer.renew (s.takeOut e) e.task (timer.act e.due c).1).putBack e.task timer) d
        = Contact.of s d := by
    unfold Contact.of
    rw [hdue, if_neg htimer]
  cases timer with
  | transmit => exact hsame _ (by decide)
  | tape =>
    rw [hsame _ (by decide)]
    exact contact_pollTape s e.due c
  | rs423 =>
    -- the timer is pending, so the line is selected
    have hselected : c.rs423Selected = true := by
      rw [← hline, Timer.due?_of_head hs htask]
      rfl
    rw [Timer.act_rs423, if_pos hselected] at hdue ⊢
    exact contact_pollPeer s e.due c hdue

/-- The passing of time is to the contact its own visits. -/
theorem contact_advance (htimed : Timed s c)
    (hline : (Timer.rs423.due? s).isSome = c.rs423Selected) {limit : Nat} {target : Cycles}
    (hlast : target.count < Cycles.last.count)
    (hadv : Scheduler.advance Timer.routine limit target s c = .ok (s', c')) :
    Contact.of s' c' = (Contact.of s c).follow target := by
  let k := Contact.of s c
  -- so many visits have been made, the last of them no later than the target
  obtain ⟨s₁, ⟨n, hvisited, hreached⟩, rfl⟩ := htimed.induct
    (fun s₁ c₁ => ∃ n, Contact.of s₁ c₁ = k.visited n ∧
      (n = 0 ∨ ∃ due, k.due? = some due ∧
        due.count + (n - 1) * k.byteTime.count ≤ target.count))
    (fun {s₁ c₁ e rest timer} htimed h hs htask hlate => by
      obtain ⟨n, hvisited, hreached⟩ := h
      have hpending : Timer.rs423.due? s₁
          = k.due?.map fun due => .ofNat (due.count + n * k.byteTime.count) :=
        congrArg Contact.due? hvisited
      have hselected : c₁.rs423Selected = c.rs423Selected :=
        congrArg Contact.rs423Selected hvisited
      have hline₁ : (Timer.rs423.due? s₁).isSome = c₁.rs423Selected := by
        rw [hpending, hselected, ← hline, Option.isSome_map]
        rfl
      have hact := contact_act htimed.orderly hline₁ hs htask
      by_cases htimer : timer = .rs423
      · subst htimer
        rw [if_pos rfl, hvisited] at hact
        rw [Timer.due?_of_head hs htask] at hpending
        obtain ⟨due, hdue, hcycle⟩ := Option.map_eq_some_iff.mp hpending.symm
        rw [← hcycle, k.turn_visited hdue] at hact
        refine ⟨n + 1, ?_, Or.inr ⟨due, hdue, ?_⟩⟩
        · rw [← hcycle]
          exact hact
        · rw [← hcycle, Cycles.lt_iff, Cycles.count_ofNat] at hlate
          rw [Cycles.count_last] at hlast
          rw [Nat.add_sub_cancel]
          omega
      · rw [if_neg htimer, hvisited] at hact
        exact ⟨n, hact, hreached⟩)
    ⟨0, k.visited_zero.symm, Or.inl rfl⟩ hadv
  have hlater := (htimed.of_advance hadv).2.2
  have hpending : Timer.rs423.due? s₁
      = k.due?.map fun due => .ofNat (due.count + n * k.byteTime.count) :=
    congrArg Contact.due? hvisited
  change Contact.of s₁ c' = k.follow target
  rw [hvisited]
  unfold Contact.follow
  congr 1
  cases hdue : k.due? with
  | none =>
    rw [Contact.visitCount_of_none hdue]
    exact hreached.resolve_right fun ⟨due, hsome, _⟩ => by simp [hdue] at hsome
  | some due =>
    rw [hdue] at hpending
    obtain ⟨e, he, hcycle⟩ := Timer.exists_entry hpending
    have hbeyond := hlater e he
    refine (Contact.visitCount_eq hdue ?_ ?_).symm
    · refine hreached.imp id fun ⟨due', hdue', hle⟩ => ?_
      obtain rfl := Option.some.inj (hdue.symm.trans hdue')
      exact hle
    · rw [hcycle] at hbeyond
      exact Nat.lt_of_lt_of_le hbeyond (Nat.min_le_left ..)

end

/-! ### Operations -/

namespace Contact

/-- The contact after the receive side has been given to RS423, or to the cassette. -/
def select (k : Contact ρ) (now : Cycles) (selected : Bool) : Contact ρ :=
  { k with
    rs423Selected := selected
    due? := if selected then k.due?.or (some (now + k.byteTime)) else none }

/-- The contact after the receive rate has been set. -/
def rated (k : Contact ρ) (rate : UInt32) : Contact ρ :=
  if rate = 0 then k else { k with receiveRate := rate }

/-- What a byte that is written into the data register is on the line. -/
def sent (k : Contact ρ) (now : Cycles) (b : UInt8) : List Moment :=
  if k.rs423Selected then (k.peer.map fun _ => ⟨now, .transmitted b⟩).toList else []

/-- The contact after a byte has been written into the data register. -/
def send [SerialPeer ρ] (k : Contact ρ) (now : Cycles) (b : UInt8) : Contact ρ :=
  { k with
    peer := if k.rs423Selected then k.peer.map (SerialPeer.hear · b) else k.peer
    passed := k.passed ++ k.sent now b }

end Contact

/-- The contact of the chip and the device on its line. -/
def contact (a : Acia ρ) : Contact ρ := .of a.timers a.chip

section

variable (a : Acia ρ)

theorem contact_keep {timer : Timer} (h : timer ≠ .rs423) (run : Bool) (delay : Cycles) :
    (a.keep timer run delay).contact = a.contact := by
  unfold contact Contact.of keep
  rw [Timer.due?_keep, if_neg h]

theorem contact_noise {e : Event} (h : e.isOnLine = false) : (a.noise e).contact = a.contact := by
  unfold noise
  split
  · exact contact_record a.timers a.now a.chip h
  · rfl

theorem contact_tell (told : List Tape.Notice) : (a.tell told).contact = a.contact := by
  unfold tell
  induction told generalizing a with
  | nil => rfl
  | cons notice told ih =>
    exact (ih _).trans (contact_record a.timers a.now a.chip rfl)

theorem contact_read (address : UInt16) : (a.read address).2.contact = a.contact := by
  unfold read
  split <;> rfl

theorem contact_rewind : a.rewind.contact = a.contact := by
  unfold rewind
  split
  · rfl
  · exact contact_record a.timers a.now a.chip rfl

theorem contact_loaded (tape : Tape) : (a.loaded tape).contact = a.contact := by
  unfold loaded
  rw [contact_keep _ (by decide), contact_keep _ (by decide)]
  exact contact_record a.timers a.now a.chip rfl

theorem contact_opened (image : List Tape.Notice × Except Tape.Error Tape) :
    (a.opened image).contact = a.contact := by
  obtain ⟨told, opened⟩ := image
  cases opened with
  | error e => exact contact_tell a told
  | ok tape => exact (contact_loaded (a.tell told) tape).trans (contact_tell a told)

theorem contact_unloaded : a.unloaded.contact = a.contact :=
  contact_keep a (show Timer.tape ≠ .rs423 by decide) false 1

theorem contact_switched (on : Bool) : (a.switched on).contact = a.contact := by
  have hrelayed (on : Bool) : (a.relayed on).contact = a.contact :=
    contact_record a.timers a.now _ rfl
  unfold switched
  split
  · rfl
  · split
    · rw [contact_keep _ (by decide), contact_noise _ rfl, hrelayed]
    · rw [contact_noise _ rfl]
      refine (contact_cassetteCarrier _ _ false).trans ?_
      refine (contact_keep _ (show Timer.tape ≠ .rs423 by decide) false 1).trans ?_
      exact (contact_playTone a.timers a.now (a.relayed false).chip .zero).trans (hrelayed false)

theorem contact_rated (rate : UInt32) : (a.rated rate).contact = a.contact.rated rate := by
  unfold rated Contact.rated
  split <;> rfl

theorem contact_selected (selected : Bool) :
    (a.selected selected).contact = a.contact.select a.now selected := by
  have hselect : Contact.of a.timers (a.chip.select selected)
      = { a.contact with rs423Selected := selected } := by
    cases selected <;> rfl
  have htime : (a.chip.select selected).byteTime = a.contact.byteTime := by
    unfold Contact.byteTime Chip.byteTime
    cases selected <;> rfl
  have hdue := Timer.due?_keep .rs423 .rs423 a.timers selected (a.chip.select selected).byteTime
  rw [if_pos rfl, htime] at hdue
  have hkept : (a.selected selected).contact
      = { Contact.of a.timers (a.chip.select selected) with
          due? := Timer.rs423.due? (Timer.keep a.timers .rs423 selected
            (a.chip.select selected).byteTime) } := rfl
  rw [hkept, hselect, htime, hdue]
  rfl

theorem contact_transmit [SerialPeer ρ] (now : Cycles) (b : UInt8) :
    (a.onChip (·.transmit now b)).contact = a.contact.send now b := by
  change Contact.of a.timers (a.chip.transmit now b) = _
  unfold Chip.transmit
  split
  · next peer hselected hpeer =>
    have hselected : a.contact.rs423Selected = true := hselected
    have hpeer : a.contact.peer = some peer := hpeer
    have hheard : (if a.contact.rs423Selected then a.contact.peer.map (SerialPeer.hear · b)
        else a.contact.peer) = some (SerialPeer.hear peer b) := by
      rw [hselected, hpeer]
      rfl
    have hsent : a.contact.sent now b = [⟨now, .transmitted b⟩] := by
      unfold Contact.sent
      rw [hselected, hpeer]
      rfl
    unfold Contact.send
    rw [hheard, hsent]
    unfold Contact.of
    rw [passed_record]
    rfl
  · next hlost =>
    have hnone (hselected : a.contact.rs423Selected = true) : a.contact.peer = none :=
      Option.eq_none_iff_forall_ne_some.mpr fun peer => hlost peer hselected
    have hheard : (if a.contact.rs423Selected then a.contact.peer.map (SerialPeer.hear · b)
        else a.contact.peer) = a.contact.peer := by
      split
      · next hselected =>
        rw [hnone hselected]
        rfl
      · rfl
    have hsent : a.contact.sent now b = [] := by
      unfold Contact.sent
      split
      · next hselected =>
        rw [hnone hselected]
        rfl
      · rfl
    unfold Contact.send
    rw [hheard, hsent, List.append_nil]
    rfl

theorem contact_written [SerialPeer ρ] (address : UInt16) (value : UInt8) :
    (a.written address value).contact
      = if isData address then a.contact.send a.now value
        else if Control.isReset value then a.contact
        else { a.contact with control := value } := by
  unfold written
  split
  · rw [contact_transmit, contact_keep _ (by decide)]
    rfl
  · split <;> rfl

end

end Cassette.Acia
