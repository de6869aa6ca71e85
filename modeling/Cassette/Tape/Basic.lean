import Cassette.Gzip.Member
import Cassette.Tape.Tapefile
import Cassette.Tape.Uef.Basic

/-!
# Tapes

A tape is an image in one of two formats, at some position.  Which format an image has
shows in its first bytes; a compressed image is inflated first.

## Main definitions

* `Tape` and its operations `poll`, `rewind`, `isFinished`, `format`.
* `Tape.load` — recognise and open an image.
-/

namespace Cassette

/-- An image at some position. -/
inductive Tape where
  | tapefile (t : Tape.Tapefile)
  | uef (t : Tape.Uef)

namespace Tape

/-- Play the next unit of work for a chip with the given control register. -/
def poll (control : UInt8) : Tape → Played Tape
  | .tapefile t => (t.poll control).map .tapefile
  | .uef t => t.poll.map .uef

/-- Back to the start of the image. -/
def rewind : Tape → Tape
  | .tapefile t => .tapefile t.rewind
  | .uef t => .uef t.rewind

/-- The whole image has been played. -/
def isFinished : Tape → Bool
  | .tapefile t => t.isFinished
  | .uef t => t.isFinished

/-- The format of the image. -/
def format : Tape → Format
  | .tapefile _ => .tapefile
  | .uef _ => .uef

/-- The base tone in force, for a format that has one. -/
def base? : Tape → Option Binary32
  | .tapefile _ => none
  | .uef t => some t.base

/-! ### Opening -/

/-- The image itself, inflated if it is compressed.  The theorems about tapes hold with any
function in the place of `Gzip.gunzip`. -/
def unpack (data : List UInt8) : List Notice × Except Error (List UInt8) :=
  if Gzip.magic.isPrefixOf data then
    match Gzip.gunzip data with
    | none => ([], .error .corruptGzip)
    | some image => ([.inflated data.length image.length], .ok image)
  else ([], .ok data)

/-- The format that the first bytes of an image show: a tapefile begins with the
carrier. -/
def detect? (image : List UInt8) : Option Format :=
  if (Tapefile.encode [.carrierPresent]).isPrefixOf image then some .tapefile
  else if Uef.magic.isPrefixOf image then some .uef
  else none

/-- Open an image of a known format, at its start. -/
def ofImage (format : Format) (image : List UInt8) (clock : Clock) :
    List Notice × Except Error Tape :=
  match format with
  | .tapefile => ([], .ok (.tapefile (.ofImage image clock)))
  | .uef =>
    match Uef.load image clock with
    | .ok (notice, t) => ([notice], .ok (.uef t))
    | .error e => ([], .error e)

/-- Recognise and open an image, with what is worth telling about it. -/
def load (data : List UInt8) (clock : Clock) : List Notice × Except Error Tape :=
  match unpack data with
  | (told, .error e) => (told, .error e)
  | (told, .ok image) =>
    match detect? image with
    | none => (told, .error .unknownFormat)
    | some format =>
      let (more, result) := ofImage format image clock
      (told ++ .detected format image.length :: more, result)

/-- An image of a known format at its start, whatever its header. -/
def start (format : Format) (image : List UInt8) (clock : Clock) : Tape :=
  match format with
  | .tapefile => .tapefile (.ofImage image clock)
  | .uef => .uef (.ofImage image clock)

/-- A tape that has been opened is its image from the start. -/
theorem eq_start_of_ofImage {format : Format} {image : List UInt8} {clock : Clock}
    {told : List Notice} {t : Tape} (h : ofImage format image clock = (told, .ok t)) :
    t = start format image clock := by
  cases format with
  | tapefile => exact (Except.ok.inj (Prod.mk.inj h).2).symm
  | uef =>
    simp only [ofImage] at h
    split at h
    · next notice t' hload =>
      obtain rfl := Except.ok.inj (Prod.mk.inj h).2
      exact congrArg Tape.uef (Uef.eq_ofImage_of_load hload)
    · simp at h

/-- Recognising an image ends with opening it in the format that it shows. -/
theorem exists_ofImage_of_load {data : List UInt8} {clock : Clock} {told : List Notice} {t : Tape}
    (h : load data clock = (told, .ok t)) :
    ∃ format image more, ofImage format image clock = (more, .ok t) := by
  unfold load at h
  split at h
  · simp at h
  · next image _ =>
    split at h
    · simp at h
    · next format _ =>
      obtain ⟨-, hopened⟩ := Prod.mk.inj h
      exact ⟨format, image, _, Prod.ext rfl hopened⟩

end Tape

end Cassette
