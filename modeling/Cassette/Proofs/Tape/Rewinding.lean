import Cassette.Proofs.Tape.Decoder

/-!
# Going back to the start

A tape can be left anywhere: between chunks or inside one, in the middle of a byte, past the end,
or after a chunk that was dropped because it was too short.  Its decoder is then left with whatever
was in its registers.  Once it goes back to the start none of that shows any more.

## Main definitions

* `Handling` — a poll with some control register, or going back.
* `Tape.after`, `Decoder.after` — what they leave.
* `Tape.showing`, `Decoder.showing` — what they show.

## Main results

* `Decoder.Stands.after`, `Decoder.Stands.showing` — a decoder is handled like the tape that it
  stands for.
* `rewound_eq_opened` — **a tape that goes back to its start is the tape that was opened.**
-/

namespace Cassette.Tape

/-- One thing that is done with a tape. -/
inductive Handling where
  /-- Its next unit is played for a chip with the given control register. -/
  | poll (control : UInt8)
  /-- It goes back to the start. -/
  | rewind

/-- What shows when something is done with a tape. -/
structure Shown where
  /-- The signals and the delay of a poll. -/
  played : Option (List Signal × Except Error Cycles)
  /-- Whether the tape is at its end then. -/
  isFinished : Bool
  /-- The base tone that is then in force. -/
  base? : Option Binary32

/-- The tape after some handling. -/
def after (t : Tape) : List Handling → Tape
  | [] => t
  | .poll control :: handlings => (t.poll control).tape.after handlings
  | .rewind :: handlings => t.rewind.after handlings

/-- What shows meanwhile. -/
def showing (t : Tape) : List Handling → List Shown
  | [] => []
  | .poll control :: handlings =>
    let p := t.poll control
    ⟨some (p.signals, p.delay), p.tape.isFinished, p.tape.base?⟩ :: p.tape.showing handlings
  | .rewind :: handlings =>
    ⟨none, t.rewind.isFinished, t.rewind.base?⟩ :: t.rewind.showing handlings

namespace Decoder

/-- The decoder after some handling. -/
def after (d : Decoder) : List Handling → Except Crash Decoder
  | [] => return d
  | .poll control :: handlings => do
    let p ← d.poll control
    p.tape.after handlings
  | .rewind :: handlings => d.rewind.after handlings

/-- What shows meanwhile. -/
def showing (d : Decoder) : List Handling → Except Crash (List Shown)
  | [] => return []
  | .poll control :: handlings => do
    let p ← d.poll control
    let more ← p.tape.showing handlings
    return ⟨some (p.signals, p.delay), p.tape.isFinished, p.tape.base?⟩ :: more
  | .rewind :: handlings => do
    let more ← d.rewind.showing handlings
    return ⟨none, d.rewind.isFinished, d.rewind.base?⟩ :: more

variable {d : Decoder} {t : Tape}

/-- Whatever is done with a decoder comes to its end, and it still stands for its tape. -/
theorem Stands.after (h : d.Stands t) (handlings : List Handling) :
    ∃ d', d.after handlings = .ok d' ∧ d'.Stands (t.after handlings) := by
  induction handlings generalizing d t with
  | nil => exact ⟨d, rfl, h⟩
  | cons handling handlings ih =>
    cases handling with
    | poll control =>
      obtain ⟨p, hpoll, -, -, hstands⟩ := h.poll control
      obtain ⟨d', hafter, hstands'⟩ := ih hstands
      refine ⟨d', ?_, hstands'⟩
      simp only [Decoder.after, hpoll, bind, Except.bind, hafter]
    | rewind => exact ih h.rewind

/-- A decoder shows what its tape shows. -/
theorem Stands.showing (h : d.Stands t) (handlings : List Handling) :
    d.showing handlings = .ok (t.showing handlings) := by
  induction handlings generalizing d t with
  | nil => rfl
  | cons handling handlings ih =>
    cases handling with
    | poll control =>
      obtain ⟨p, hpoll, hsignals, hdelay, hstands⟩ := h.poll control
      simp only [Decoder.showing, hpoll, bind, Except.bind, ih hstands, hsignals, hdelay,
        hstands.isFinished, hstands.base?]
      rfl
    | rewind =>
      have hstands := h.rewind
      simp only [Decoder.showing, bind, Except.bind, ih hstands, hstands.isFinished, hstands.base?]
      rfl

end Decoder

/-! ### The tape that was opened -/

theorem Uef.rewind_poll (t : Uef) : t.poll.tape.rewind = t.rewind := by
  unfold Uef.poll
  split
  · rfl
  · split
    · rfl
    · split <;> rfl

theorem Tapefile.rewind_poll (t : Tapefile) (control : UInt8) :
    (t.poll control).tape.rewind = t.rewind := by
  unfold Tapefile.poll
  split
  · rfl
  · split <;> rfl

theorem rewind_poll (t : Tape) (control : UInt8) : (t.poll control).tape.rewind = t.rewind := by
  cases t with
  | tapefile t => exact congrArg Tape.tapefile (t.rewind_poll control)
  | uef t => exact congrArg Tape.uef t.rewind_poll

theorem rewind_rewind (t : Tape) : t.rewind.rewind = t.rewind := by cases t <;> rfl

/-- No handling changes the start of a tape. -/
theorem rewind_after (t : Tape) (handlings : List Handling) :
    (t.after handlings).rewind = t.rewind := by
  induction handlings generalizing t with
  | nil => rfl
  | cons handling handlings ih =>
    cases handling with
    | poll control => exact (ih _).trans (rewind_poll t control)
    | rewind => exact (ih _).trans (rewind_rewind t)

/-- A tape that has been opened is at its start. -/
theorem rewind_of_load {data : List UInt8} {clock : Clock} {told : List Notice} {t : Tape}
    (h : Tape.load data clock = (told, .ok t)) : t.rewind = t := by
  obtain ⟨format, image, more, hopened⟩ := exists_ofImage_of_load h
  obtain rfl := eq_start_of_ofImage hopened
  cases format <;> rfl

/-- **A tape that goes back to its start is the tape that was opened.**  Let a tape in either format
be opened, on any clock, and then be polled with any control registers and sent back to its start,
in any order and number, whatever the polls come to.  Once it goes back to its start, it is at its
end or not and has the base tone as when it was opened, and whatever is done with it from there on
shows the same.  So it is with a decoder that keeps its chunk, its frame and its format in registers
and has to put each of them back: none of its operations is the end of the program, and it shows
what the tape shows. -/
theorem rewound_eq_opened {data : List UInt8} {clock : Clock} {told : List Notice} {t : Tape}
    (h : Tape.load data clock = (told, .ok t)) (handlings : List Handling) :
    ((t.after handlings).rewind.isFinished = t.isFinished ∧
      (t.after handlings).rewind.base? = t.base? ∧
      ∀ more, (t.after handlings).rewind.showing more = t.showing more) ∧
    ∃ d d', Decoder.load data clock = .ok (told, .ok d) ∧ d.after handlings = .ok d' ∧
      d'.rewind.isFinished = d.isFinished ∧
      d'.rewind.base? = d.base? ∧
      ∀ more, d'.rewind.showing more = d.showing more ∧ d.showing more = .ok (t.showing more) := by
  have hstart : (t.after handlings).rewind = t :=
    (rewind_after t handlings).trans (rewind_of_load h)
  refine ⟨by rw [hstart]; exact ⟨rfl, rfl, fun more => rfl⟩, ?_⟩
  have hload := Decoder.stands_load data clock
  rw [h] at hload
  obtain ⟨d, hload, hstands, hrewind⟩ := hload
  obtain ⟨d', hafter, hstands'⟩ := hstands.after handlings
  have hsame : d'.rewind = d :=
    (hstands'.rewind_eq hstands (rewind_after t handlings)).trans hrewind
  refine ⟨d, d', hload, hafter, ?_⟩
  rw [hsame]
  exact ⟨rfl, rfl, fun more => ⟨rfl, hstands.showing more⟩⟩

/-- A base tone of 600 hertz, and a byte in a format of its own. -/
def lowTone : List UInt8 :=
  Uef.encode 10 [⟨0x0113, [0, 0, 0x16, 0x44]⟩, ⟨0x0104, [7, 0x45, 2, 0xC3]⟩]

/-- In the middle of the byte the low tone is in force, and once the tape goes back it is not. -/
theorem rewound_eq_opened_lowTone :
    Tape.load lowTone .standard
        = ([.detected .uef 32, .version 0 10], .ok (.start .uef lowTone .standard)) ∧
      ((Tape.start .uef lowTone .standard).after [.poll 0x01, .poll 0x01, .poll 0x81]).base?
        = some ⟨0x44160000⟩ ∧
      ((Tape.start .uef lowTone .standard).after [.poll 0x01, .poll 0x01, .poll 0x81]).rewind.base?
        = some ⟨0x44960000⟩ ∧
      ∃ d d', Decoder.load lowTone .standard = .ok ([.detected .uef 32, .version 0 10], .ok d) ∧
        d.after [.poll 0x01, .poll 0x01, .poll 0x81] = .ok d' ∧ d'.rewind.base? = d.base? ∧
        ∀ more,
          d'.rewind.showing more = .ok ((Tape.start .uef lowTone .standard).showing more) := by
  have hload : Tape.load lowTone .standard
      = ([.detected .uef 32, .version 0 10], .ok (.start .uef lowTone .standard)) := rfl
  obtain ⟨⟨-, hbase, -⟩, d, d', hopened, hafter, -, hbase', hshowing⟩ :=
    rewound_eq_opened hload [.poll 0x01, .poll 0x01, .poll 0x81]
  refine ⟨hload, rfl, hbase, d, d', hopened, hafter, hbase', fun more => ?_⟩
  exact (hshowing more).1.trans (hshowing more).2

end Cassette.Tape
