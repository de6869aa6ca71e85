import Cassette.Proofs.Acia.Outcome

/-!
# The transmitter

Of the whole chip, the transmit register depends on very little: a byte that is written fills it
and starts the timer unless it runs already, a master reset empties it and leaves the timer
alone, and when the timer fires it is empty.  The tape, the line and the other timers have no
part in it.

## Main definitions

* `Transmitter` — whether the transmit register is empty, and when the timer fires.
* `Transmitter.reset`, `send`, `pass` — what can happen to it.
* `Acia.deadline` — when a byte that is written now has been sent.

## Main results

* `transmitter_advance` — the passing of time is nothing but `pass` to the transmitter.
* `transmitter_written`, … — what the operations are to it.
-/

namespace Cassette.Acia

variable {ρ : Type}

/-- The transmit register and its timer. -/
structure Transmitter where
  empty : Bool
  /-- When the register becomes empty, if the timer is pending. -/
  due? : Option Cycles

namespace Transmitter

/-- A master reset. -/
def reset (t : Transmitter) : Transmitter := { t with empty := true }

/-- A byte is written, and would be sent by `due`. -/
def send (t : Transmitter) (due : Cycles) : Transmitter := ⟨false, t.due?.or (some due)⟩

/-- Time passes up to `target`. -/
def pass (t : Transmitter) (target : Cycles) : Transmitter :=
  match t.due? with
  | none => t
  | some due => if target < due then t else ⟨true, none⟩

theorem pass_of_lt {t : Transmitter} {target : Cycles} (h : ∀ due ∈ t.due?, target < due) :
    t.pass target = t := by
  unfold pass
  split
  · rfl
  · next due hdue => exact if_pos (h due hdue)

theorem pass_of_due {t : Transmitter} {target due : Cycles} (h : t.due? = some due)
    (hdue : ¬ target < due) : t.pass target = ⟨true, none⟩ := by
  unfold pass
  rw [h]
  exact if_neg hdue

/-- The transmitter of some timers and a chip. -/
def of (s : Scheduler Timer) (c : Chip ρ) : Transmitter :=
  ⟨c.standing.transmitEmpty, Timer.transmit.due? s⟩

end Transmitter

/-- The transmitter of the chip. -/
def transmitter (a : Acia ρ) : Transmitter := .of a.timers a.chip

/-- When a byte that is written now has been sent: as long after as a transmission takes, or when
one that has not come to its end was to do so. -/
def deadline (a : Acia ρ) : Cycles :=
  (Timer.transmit.due? a.timers).getD (a.now + a.transmitDelay)

/-! ### Time -/

/-- An act of a timer brings the transmitter no further than the time up to its target. -/
theorem pass_act [SerialPeer ρ] {s : Scheduler Timer} {c : Chip ρ} {e : Entry} {rest : List Entry}
    {timer : Timer} {target : Cycles} (horderly : s.Orderly) (hs : s.agenda = e :: rest)
    (htask : e.task = timer.id) (hdue : ¬ target < e.due) :
    (Transmitter.of ((Timer.renew (s.takeOut e) e.task (timer.act e.due c).1).putBack e.task timer)
      (timer.act e.due c).2).pass target = (Transmitter.of s c).pass target := by
  have hpending := Timer.due?_of_head hs htask
  unfold Transmitter.of
  rw [standing_act, Timer.due?_fire horderly hs htask]
  cases timer with
  | transmit => exact (Transmitter.pass_of_due (t := .of s c) hpending hdue).symm
  | tape => rfl
  | rs423 => rfl

/-- The passing of time is nothing else to the transmitter. -/
theorem transmitter_advance [SerialPeer ρ] {s s' : Scheduler Timer} {c c' : Chip ρ}
    (h : Timed s c) {limit : Nat} {target : Cycles}
    (hadv : Scheduler.advance Timer.routine limit target s c = .ok (s', c')) :
    Transmitter.of s' c' = (Transmitter.of s c).pass target := by
  -- no act changes what the transmitter comes to when all the time has passed
  obtain ⟨s₁, h₁, rfl⟩ := h.induct
    (fun s' c' => (Transmitter.of s' c').pass target = (Transmitter.of s c).pass target)
    (fun htimed h hs htask hdue => (pass_act htimed.orderly hs htask hdue).trans h) rfl hadv
  rw [← h₁]
  -- nothing that was due by the target is pending
  have hlater := (h.of_advance hadv).2.2
  refine (Transmitter.pass_of_lt fun due hdue => ?_).symm
  obtain ⟨e, he, rfl⟩ := Timer.exists_entry hdue
  exact hlater e he

/-! ### Operations -/

section

variable (a : Acia ρ)

theorem transmitter_keep {timer : Timer} (h : timer ≠ .transmit) (run : Bool) (delay : Cycles) :
    (a.keep timer run delay).transmitter = a.transmitter := by
  unfold transmitter Transmitter.of keep
  rw [Timer.due?_keep, if_neg h]

/-- What does not set the chip up has no part in it. -/
theorem transmitter_onChip (f : Chip ρ → Chip ρ)
    (h : (f a.chip).standing.transmitEmpty = a.chip.standing.transmitEmpty) :
    (a.onChip f).transmitter = a.transmitter := by
  unfold transmitter Transmitter.of onChip
  rw [h]

theorem transmitter_noise (e : Event) : (a.noise e).transmitter = a.transmitter := by
  unfold noise
  split <;> rfl

theorem transmitter_tell (told : List Tape.Notice) : (a.tell told).transmitter = a.transmitter := by
  unfold tell
  induction told generalizing a with
  | nil => rfl
  | cons notice told ih => exact ih _

theorem transmitter_read (address : UInt16) : (a.read address).2.transmitter = a.transmitter := by
  unfold read
  split <;> rfl

theorem transmitter_written [SerialPeer ρ] (address : UInt16) (value : UInt8) :
    (a.written address value).transmitter
      = if isData address then a.transmitter.send (a.now + a.transmitDelay)
        else if Control.isReset value then a.transmitter.reset else a.transmitter := by
  unfold written
  split
  · -- a timer that is pending keeps its deadline
    rw [transmitter_onChip _ (·.transmit a.now value) (by rw [standing_transmit])]
    unfold transmitter Transmitter.of keep
    rw [Timer.due?_keep]
    rfl
  · split <;> rfl

theorem transmitter_selected (selected : Bool) :
    (a.selected selected).transmitter = a.transmitter := by
  unfold Acia.selected
  rw [transmitter_keep _ (by decide)]
  refine transmitter_onChip a (·.select selected) ?_
  unfold Chip.select
  dsimp only
  split
  · rw [standing_setCarrier]
    rfl
  · rfl

theorem transmitter_switched (on : Bool) : (a.switched on).transmitter = a.transmitter := by
  unfold switched
  split
  · rfl
  · split
    · rw [transmitter_keep _ (by decide), transmitter_noise]
      rfl
    · rw [transmitter_noise, transmitter_onChip _ (·.cassetteCarrier false)
          (by rw [standing_cassetteCarrier]), transmitter_keep _ (by decide),
        transmitter_onChip _ (·.playTone a.now .zero) (by rw [standing_playTone])]
      rfl

theorem transmitter_rated (rate : UInt32) : (a.rated rate).transmitter = a.transmitter := by
  unfold rated
  split <;> rfl

theorem transmitter_loaded (tape : Tape) : (a.loaded tape).transmitter = a.transmitter := by
  unfold loaded
  rw [transmitter_keep _ (by decide), transmitter_keep _ (by decide)]
  rfl

theorem transmitter_opened (image : List Tape.Notice × Except Tape.Error Tape) :
    (a.opened image).transmitter = a.transmitter := by
  obtain ⟨told, opened⟩ := image
  cases opened with
  | error e => exact transmitter_tell a told
  | ok tape => exact (transmitter_loaded (a.tell told) tape).trans (transmitter_tell a told)

theorem transmitter_unloaded : a.unloaded.transmitter = a.transmitter := by
  refine (transmitter_onChip (a.keep .tape false 1) ({ · with deck := none }) rfl).trans ?_
  exact transmitter_keep a (by decide) false 1

theorem transmitter_rewind : a.rewind.transmitter = a.transmitter := by
  unfold rewind
  split <;> rfl

end

end Cassette.Acia
