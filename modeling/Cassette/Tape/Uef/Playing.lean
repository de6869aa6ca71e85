import Cassette.Tape.Signal
import Cassette.Tape.Uef.Chunk
import Cassette.Tape.Uef.Frame
import Cassette.Text.Utf8

/-!
# Playing a chunk

A chunk is played one unit of work at a time.  Most kinds are a single unit; the
data chunks and the carrier with a dummy byte go on over many polls, and between
two of them the chunk is a value of `Playing`.

The carrier is there only while a carrier tone plays: every unit of another kind
lowers the line before it does anything else, also when its payload turns out to
be too short.

## Main definitions

* `Playing` — a chunk of which more than one unit is left.
* `Stretch.begin` — the first unit of a chunk.
* `Stretch.resume` — the next unit of a chunk that is being played.
-/

namespace Cassette.Tape.Uef

/-- What is left of a chunk between two polls. -/
inductive Playing where
  /-- Data in the standard format: the cells left of the byte on the wire, and the
  bytes after it. -/
  | standardFrame (byte : UInt8) (cells : List Bool) (rest : List UInt8)
  /-- Data in a defined format, between two frames. -/
  | nextFrame (framing : Framing) (rest : List UInt8)
  /-- Data in a defined format: the cells left of the byte on the wire, and the bytes
  after it. -/
  | definedFrame (framing : Framing) (byte : UInt8) (cells : List Bool) (rest : List UInt8)
  /-- The cells left of the dummy byte, and the periods of carrier after it. -/
  | dummyFrame (cells : List Bool) (after : Nat)
  deriving DecidableEq

/-- What a chunk is played against. -/
structure Tuning where
  clock : Clock
  /-- The base tone. -/
  base : Binary32

namespace Tuning

/-- The time of `n` periods of the base tone. -/
def bitTime (t : Tuning) (n : Nat) : Cycles :=
  t.clock.cyclesOfPeriods (UInt64.ofNat n).toFloat t.base.widen

/-- The time of `n` half periods of the base tone. -/
def halfTime (t : Tuning) (n : Nat) : Cycles :=
  t.clock.cyclesOfPeriods (UInt64.ofNat n).toFloat (2.0 * t.base.widen)

/-- The tone of a cell. -/
def cell (t : Tuning) (cell : Bool) : Signal := .tone (cellTone t.base cell)

/-- The tone of carrier and of stop cells. -/
def high (t : Tuning) : Signal := t.cell true

end Tuning

/-- One unit of work: what it does, how long it takes, the base tone after it, and
what is left of the chunk. -/
structure Stretch where
  signals : List Signal
  delay : Except Error Cycles
  base : Binary32
  playing : Option Playing

namespace Stretch

/-- A unit that ends its chunk and keeps the base tone. -/
def last (t : Tuning) (signals : List Signal) (delay : Cycles) : Stretch :=
  ⟨signals, .ok delay, t.base, none⟩

/-- A unit after which the chunk goes on. -/
def more (t : Tuning) (signals : List Signal) (delay : Cycles) (playing : Playing) : Stretch :=
  ⟨signals, .ok delay, t.base, some playing⟩

/-- A unit that finds its payload too short, which drops the chunk. -/
def failed (t : Tuning) (signals : List Signal) (e : Error) : Stretch :=
  ⟨signals, .error e, t.base, none⟩

/-! ### Data -/

/-- A cell of the standard format.  The byte arrives with the last cell of its frame,
and the next byte is taken up at once. -/
def standardCell (t : Tuning) (byte : UInt8) (cells : List Bool) (rest : List UInt8) : Stretch :=
  match cells, rest with
  | [], _ => last t [.carrier false] (t.bitTime 1)
  | [cell], [] => last t [.carrier false, t.cell cell, .byte byte] (t.bitTime 1)
  | [cell], next :: rest =>
    more t [.carrier false, t.cell cell, .byte byte] (t.bitTime 1)
      (.standardFrame next (Framing.standard.cells next) rest)
  | cell :: cells, rest =>
    more t [.carrier false, t.cell cell] (t.bitTime 1) (.standardFrame byte cells rest)

/-- The first unit of data in the standard format; without any bytes it is one silent
cell. -/
def standardData (t : Tuning) : List UInt8 → Stretch
  | [] => last t [.carrier false] (t.bitTime 1)
  | byte :: rest => standardCell t byte (Framing.standard.cells byte) rest

/-- Data in a defined format between two frames: a start cell, or one silent cell at
the end of the payload. -/
def frameStart (t : Tuning) (framing : Framing) (noted : List Signal) : List UInt8 → Stretch
  | [] => last t (.carrier false :: noted) (t.bitTime 1)
  | byte :: rest =>
    let byte := framing.mask byte
    more t (.carrier false :: noted ++ [t.cell false]) (t.bitTime 1)
      (.definedFrame framing byte (framing.cells byte).tail rest)

/-- A cell of a defined format.  The byte arrives after its last cell, in a unit that
takes no time. -/
def definedCell (t : Tuning) (framing : Framing) (byte : UInt8) (cells : List Bool)
    (rest : List UInt8) : Stretch :=
  match cells with
  | [] => more t [.carrier false, .byte byte] 0 (.nextFrame framing rest)
  | cell :: cells =>
    more t [.carrier false, t.cell cell] (t.bitTime 1) (.definedFrame framing byte cells rest)

/-- The format that the first three bytes of a payload define. -/
def readFraming : Reader (Framing × Nat) := do
  let bits ← Reader.byte
  let letter ← Reader.byte
  let stopBits ← Reader.byte
  let parity := (Parity.ofLetter? letter).getD .none
  return (⟨min bits.toNat 8, parity, stopBits, Nat.min_le_right ..⟩, 3)

/-- What is worth telling about the bytes that define a format, as far as they go. -/
def framingWarnings : List UInt8 → List Signal
  | [] => []
  | bits :: rest =>
    (if 8 < bits then [.note (.tooManyDataBits bits)] else []) ++
      match rest with
      | [] => []
      | letter :: _ =>
        if (Parity.ofLetter? letter).isNone then [.note (.unknownParity letter)] else []

/-- The first unit of data in a defined format. -/
def definedData (t : Tuning) (payload : List UInt8) : Stretch :=
  let warnings := framingWarnings payload
  match readFraming (.start .uefChunk payload) with
  | (.error e, _) => failed t (.carrier false :: warnings) e
  | (.ok (framing, used), _) =>
    let told := .note (.framing framing.dataBits framing.parity.letter framing.stopBits.toNat)
    frameStart t framing (warnings ++ [told]) (payload.drop used)

/-! ### Carrier -/

/-- A carrier tone. -/
def carrier (t : Tuning) (payload : List UInt8) : Stretch :=
  match Reader.number 2 (.start .uefChunk payload) with
  | (.error e, _) => failed t [] e
  | (.ok n, _) => last t [.carrier true, t.high] (t.bitTime n)

/-- The carrier before a dummy byte. -/
def dummyLeadIn (t : Tuning) (payload : List UInt8) : Stretch :=
  match lengths (.start .uefChunk payload) with
  | (.error e, _) => failed t [] e
  | (.ok (before, after), _) =>
    more t [.note (.dummyByte before after), .carrier true, t.high] (t.bitTime before)
      (.dummyFrame dummyCells after)
where
  lengths : Reader (Nat × Nat) := do
    let before ← Reader.number 2
    let after ← Reader.number 2
    return (before, after)

/-- A cell of the dummy byte, which arrives with the last of them; then the carrier
after it. -/
def dummyCell (t : Tuning) (cells : List Bool) (after : Nat) : Stretch :=
  match cells with
  | [] => last t [.carrier true, t.high] (t.bitTime after)
  | cell :: cells =>
    let arrival := if cells.isEmpty then [.byte dummyByte] else []
    more t ([.carrier false, t.cell cell] ++ arrival) (t.bitTime 1) (.dummyFrame cells after)

/-! ### Gaps and the base tone -/

/-- A gap in half periods of the base tone. -/
def integerGap (t : Tuning) (payload : List UInt8) : Stretch :=
  match Reader.number 2 (.start .uefChunk payload) with
  | (.error e, _) => failed t [.carrier false] e
  | (.ok n, _) =>
    let delay := t.halfTime n
    last t [.carrier false, .tone .zero, .note (.gap delay)] delay

/-- A binary32 number. -/
def readBinary32 : Reader Binary32 := do return ⟨UInt32.ofNat (← Reader.number 4)⟩

/-- A gap in seconds; one that is negative or not finite takes no time. -/
def floatGap (t : Tuning) (payload : List UInt8) : Stretch :=
  match readBinary32 (.start .uefChunk payload) with
  | (.error e, _) => failed t [.carrier false] e
  | (.ok seconds, _) =>
    if seconds.isFinite && seconds.isNonnegative then
      last t [.carrier false, .tone .zero, .note (.gapSeconds seconds)]
        (t.clock.cyclesOfSeconds seconds.widen)
    else last t [.carrier false, .tone .zero, .note (.invalidGap seconds)] 0

/-- A change of the base tone; one that is not positive or not finite changes
nothing.  The unit is one cell of the tone after it. -/
def baseFrequency (t : Tuning) (payload : List UInt8) : Stretch :=
  match readBinary32 (.start .uefChunk payload) with
  | (.error e, _) => failed t [.carrier false] e
  | (.ok hertz, _) =>
    if hertz.isFinite && hertz.isPositive then
      let t := { t with base := hertz }
      last t [.carrier false, .note (.frequency hertz)] (t.bitTime 1)
    else last t [.carrier false, .note (.invalidFrequency hertz)] (t.bitTime 1)

/-- A chunk that only tells something. -/
def telling (t : Tuning) (notice : Notice) : Stretch :=
  last t [.carrier false, .note notice] (t.bitTime 1)

/-- The text of a payload, up to a zero byte. -/
def originText (payload : List UInt8) : String :=
  Text.Utf8.decodeLossy (payload.takeWhile (· ≠ 0))

/-! ### Any chunk -/

/-- The first unit of a chunk. -/
def begin (t : Tuning) (c : Chunk) : Stretch :=
  match c.kind with
  | .origin => telling t (.origin (originText c.payload))
  | .implicitData => standardData t c.payload
  | .definedData => definedData t c.payload
  | .carrier => carrier t c.payload
  | .carrierWithDummy => dummyLeadIn t c.payload
  | .integerGap => integerGap t c.payload
  | .baseFrequency => baseFrequency t c.payload
  | .securityCycles => telling t .securityCycles
  | .phaseChange => telling t .phaseChange
  | .floatGap => floatGap t c.payload
  | .unknown => telling t (.unknownChunk c.id)

/-- The next unit of a chunk that is being played. -/
def resume (t : Tuning) : Playing → Stretch
  | .standardFrame byte cells rest => standardCell t byte cells rest
  | .nextFrame framing rest => frameStart t framing [] rest
  | .definedFrame framing byte cells rest => definedCell t framing byte cells rest
  | .dummyFrame cells after => dummyCell t cells after

end Stretch

end Cassette.Tape.Uef
