import Cassette.Tape.Cursor
import Cassette.Tape.Signal

/-!
# Tapefile images

A tapefile is the sequence of bytes that the serial chip receives, in which an
escape byte marks changes of the carrier.

| bytes     | item                                   |
|-----------|----------------------------------------|
| `FF 00`   | the carrier is lost                    |
| `FF 04`   | the carrier is present, for a warm-up  |
| `FF FF`   | the byte `FF`                          |
| `nn`      | the byte `nn`                          |

## Main definitions

* `Tapefile.Item` — what an image is made of.
* `Tapefile.encode` — the image of a list of items.
* `Tapefile.Item.read` — the item at a position.
* `Tapefile.poll` — the next item, with the time it takes on the wire.
-/

namespace Cassette.Tape

/-- A tapefile at some position. -/
structure Tapefile where
  image : List UInt8
  clock : Clock
  cursor : Cursor

namespace Tapefile

/-- The byte that is not itself. -/
def escape : UInt8 := 0xFF

/-- One item of an image. -/
inductive Item where
  | byte (b : UInt8)
  | carrierLost
  | carrierPresent
  deriving DecidableEq

/-- The bytes of an item. -/
def Item.encode : Item → List UInt8
  | .byte b => if b = escape then [escape, escape] else [b]
  | .carrierLost => [escape, 0x00]
  | .carrierPresent => [escape, 0x04]

/-- The image of a list of items. -/
def encode (items : List Item) : List UInt8 := items.flatMap Item.encode

/-- The item at a position.  A pair that means nothing is passed over. -/
def Item.read : Reader Item := do
  let b ← Reader.byte
  if b ≠ escape then return .byte b
  let e ← Reader.byte
  if e = 0x00 then return .carrierLost
  else if e = 0x04 then return .carrierPresent
  else if e = escape then return .byte e
  else Reader.fail (.unexpectedEscape e)

/-! ### Time on the wire -/

/-- Bits in a second before the chip's divider. -/
def lineRate : Nat := 19200

/-- The divider in the low two bits of a control register; the fourth setting is
the chip's reset and divides by nothing. -/
def divider? (control : UInt8) : Option Nat :=
  match control.toNat % 4 with
  | 0 => some 1
  | 1 => some 16
  | 2 => some 64
  | _ => none

/-- The bits of a byte on the wire: nine, or ten while bit 7 of the control register
is clear. -/
def bitsPerByte (control : UInt8) : Nat := if control.toNat < 0x80 then 10 else 9

/-- The time that a byte takes.  Only the chip's divider matters to the cassette.  The
product is one of 64-bit words, modulo `2 ^ 64`; there is room for all of it while the clock
runs below `2 ^ 64 / 640` cycles a second. -/
def byteTime (clock : Clock) (control : UInt8) : Cycles :=
  match divider? control with
  | some divider =>
    Cycles.ofUInt64 (UInt64.ofNat (bitsPerByte control) * clock.frequency * UInt64.ofNat divider
      / UInt64.ofNat lineRate)
  | none => idleDelay

/-- The time that an item takes. -/
def Item.time (clock : Clock) (control : UInt8) : Item → Cycles
  | .byte _ => byteTime clock control
  | .carrierLost => 0
  | .carrierPresent => clock.cyclesOfSeconds 5.0

/-- The signals of an item. -/
def Item.signals (control : UInt8) : Item → List Signal
  | .byte b =>
    .byte b :: if (divider? control).isNone then [.note (.invalidDivider control)] else []
  | .carrierLost => [.carrier false]
  | .carrierPresent => [.carrier true]

/-! ### Playing -/

/-- An image at its first byte. -/
def ofImage (image : List UInt8) (clock : Clock) : Tapefile :=
  ⟨image, clock, .start .tapefile image⟩

/-- Back to the first byte. -/
def rewind (t : Tapefile) : Tapefile := { t with cursor := .start .tapefile t.image }

/-- The whole image has been played. -/
def isFinished (t : Tapefile) : Bool := t.cursor.atEnd

/-- Play the next item for a chip with the given control register. -/
def poll (control : UInt8) (t : Tapefile) : Played Tapefile :=
  if t.cursor.atEnd then { signals := [], delay := .ok idleDelay, tape := t }
  else
    match Item.read t.cursor with
    | (.ok item, cursor) =>
      { signals := item.signals control
        delay := .ok (item.time t.clock control)
        tape := { t with cursor } }
    | (.error e, cursor) => { signals := [], delay := .error e, tape := { t with cursor } }

end Tapefile

end Cassette.Tape
