import Cassette.Tape.Uef.Playing

/-!
# UEF tapes

A UEF tape is its image with a position, the base tone in force, and perhaps a
chunk that is being played.  Each poll plays one unit of work and starts the next
chunk when the last one is over.

## Main definitions

* `Uef.load` — open an image, which gives a tape at its first chunk.
* `Uef.poll` — the next unit of work.
-/

namespace Cassette.Tape

/-- A UEF tape at some position. -/
structure Uef where
  image : List UInt8
  clock : Clock
  /-- The first byte after the chunks that have been begun. -/
  cursor : Cursor
  base : Binary32
  playing : Option Uef.Playing

namespace Uef

/-- The base tone at the start of every tape, 1200 hertz. -/
def defaultBase : Binary32 := ⟨0x44960000⟩

/-- An image at its first chunk. -/
def ofImage (image : List UInt8) (clock : Clock) : Uef :=
  ⟨image, clock, .seek .uefImage image headerLength, defaultBase, none⟩

/-- Open an image, whose header has to be in order. -/
def load (image : List UInt8) (clock : Clock) : Except Error (Notice × Uef) := do
  let minor ← readHeader image
  return (.version 0 minor, ofImage image clock)

theorem eq_ofImage_of_load {image : List UInt8} {clock : Clock} {notice : Notice} {t : Uef}
    (h : load image clock = .ok (notice, t)) : t = ofImage image clock := by
  unfold load at h
  cases hheader : readHeader image with
  | error e =>
    rw [hheader] at h
    simp [bind, Except.bind] at h
  | ok minor =>
    rw [hheader] at h
    exact (Prod.mk.inj (Except.ok.inj h)).2.symm

/-- Back to the first chunk. -/
def rewind (t : Uef) : Uef := ofImage t.image t.clock

/-- The whole image has been played. -/
def isFinished (t : Uef) : Bool := t.playing.isNone && t.cursor.atEnd

/-- The clock and the base tone. -/
def tuning (t : Uef) : Tuning := ⟨t.clock, t.base⟩

/-- The outcome of a unit of work. -/
def perform (t : Uef) (told : List Signal) (u : Stretch) : Played Uef :=
  { signals := told ++ u.signals
    delay := u.delay.map (min · maxDelay)
    tape := { t with base := u.base, playing := u.playing } }

/-- Play the next unit of work. -/
def poll (t : Uef) : Played Uef :=
  match t.playing with
  | some playing => t.perform [] (.resume t.tuning playing)
  | none =>
    if t.cursor.atEnd then { signals := [], delay := .ok idleDelay, tape := t }
    else
      match Chunk.read t.cursor with
      | (.error e, cursor) => { signals := [], delay := .error e, tape := { t with cursor } }
      | (.ok chunk, cursor) =>
        { t with cursor }.perform [.note (.chunk chunk.id chunk.payload.length)]
          (.begin t.tuning chunk)

end Uef

end Cassette.Tape
