import Cassette.Proofs.Tape.Stream
import Cassette.Proofs.Uef.Bits
import Cassette.Proofs.Uef.Score
import Cassette.Tape.Uef.Basic

/-!
# A UEF decoder in registers

A decoder that is built for speed does not lay out the frames that it plays.  It has the chunk in
hand as a stream, counts the cells of the frame on the wire, shifts the data bits out of a loop, and
keeps the format of the frame in registers; and a register that the chunk in hand does not use has
whatever an earlier one left in it.  Such a decoder does what the tape does that it plays.

## Main definitions

* `Registers` — the decoder.
* `Registers.load` — a decoder at the first chunk of an image.
* `Registers.poll`, `Registers.rewind` — the next unit of work, and going back.
-/

namespace Cassette.Tape.Uef

/-- The registers of a decoder. -/
structure Registers where
  stream : ByteStream
  clock : Clock
  /-- The chunk that is being played, with what is left of its payload. -/
  chunk : Option (UInt16 × ByteStream)
  /-- The cell of the frame that comes next, if a chunk goes on. -/
  state : Option Nat
  base : Binary32
  /-- The byte on the wire. -/
  byte : UInt8
  /-- The bits of the byte that are to come. -/
  bits : BitLoop
  dataBits : Nat
  parity : Parity
  stopBits : UInt8
  /-- The periods of carrier after a dummy byte. -/
  carrierAfter : Nat

/-- What a unit of work comes to: what it does and how long it takes, the registers after it, and
what is left of the payload. -/
structure Turn where
  signals : List Signal
  delay : Except Error Cycles
  registers : Registers
  payload : ByteStream

/-- What has been told before. -/
def Turn.telling (told : List Signal) (t : Turn) : Turn := { t with signals := told ++ t.signals }

/-- One more, if a counter of 32 bits has room for it. -/
def increment (state : Nat) : Except Crash Nat :=
  if state + 1 < 0x100000000 then .ok (state + 1) else .error .counter

/-- So many bits of a byte, if it has them. -/
def maskBits (bits : Nat) : Except Crash UInt8 :=
  if bits = 8 then .ok 0xFF else if bits < 8 then .ok ((1 <<< UInt8.ofNat bits) - 1)
  else .error .mask

/-- A loop over the first bits of some bytes. -/
def loopOver (bytes : Array UInt8) (bits : Nat) : Except Crash BitLoop :=
  match BitLoop.take? bytes bits with
  | .ok loop => .ok loop
  | .error fault => .error (.loop fault)

/-- The parity bit after the data bits of a byte. -/
def Parity.bit (p : Parity) (byte : UInt8) : Bool :=
  match p with
  | .none => false
  | .odd => Score.ones byte.toNat % 2 = 0
  | .even => Score.ones byte.toNat % 2 = 1

namespace Registers

/-- The clock and the base tone. -/
def tuning (r : Registers) : Tuning := ⟨r.clock, r.base⟩

/-- Take up a byte, of which the low bits count. -/
def loadByte (r : Registers) (byte : UInt8) (bits : Nat) : Except Crash Registers := do
  let bits := min bits 8
  let mask ← maskBits bits
  let bitLoop ← loopOver #[byte &&& mask] bits
  return { r with byte := byte &&& mask, bits := bitLoop }

/-- A cell of a frame that goes on with the next. -/
def cell (r : Registers) (state : Nat) (signal : Signal) (payload : ByteStream) :
    Except Crash Turn := do
  return ⟨[signal], .ok (r.tuning.bitTime 1), { r with state := some (← increment state) }, payload⟩

/-- The next cell of a frame in the standard format. -/
def standardCell (r : Registers) (state : Nat) (payload : ByteStream) : Except Crash Turn := do
  if state = 0 then
    return ⟨[r.tuning.cell false], .ok (r.tuning.bitTime 1), { r with state := some 1 }, payload⟩
  if state ≤ 8 then
    return (← ({ r with bits := r.bits.next.2 } : Registers).cell state
      (r.tuning.cell r.bits.next.1) payload)
  let told := [r.tuning.high, .byte r.byte]
  if payload.atEnd then
    return ⟨told, .ok (r.tuning.bitTime 1), { r with state := none }, payload⟩
  match ← StreamReader.byte payload with
  | (.error e, payload) => return ⟨told, .error e, r, payload⟩
  | (.ok byte, payload) =>
    let r ← r.loadByte byte 8
    return ⟨told, .ok (r.tuning.bitTime 1), { r with state := some 0 }, payload⟩

/-- Data in the standard format. -/
def standardData (r : Registers) (payload : ByteStream) : Except Crash Turn := do
  match r.state with
  | some state => r.standardCell state payload
  | none =>
    if payload.atEnd then
      return ⟨[], .ok (r.tuning.bitTime 1), r, payload⟩
    match ← StreamReader.byte payload with
    | (.error e, payload) => return ⟨[], .error e, r, payload⟩
    | (.ok byte, payload) => (← r.loadByte byte 8).standardCell 0 payload

/-- The next cell of a frame in a defined format, or the end of it, with which its byte arrives. -/
def definedCell (r : Registers) (state : Nat) (payload : ByteStream) : Except Crash Turn := do
  let dataEnd := 1 + r.dataBits
  let parityEnd := dataEnd + if r.parity = .none then 0 else 1
  let stopEnd := parityEnd + r.stopBits.toNat
  if state = 0 then
    if payload.atEnd then
      return ⟨[], .ok (r.tuning.bitTime 1), { r with state := none }, payload⟩
    match ← StreamReader.byte payload with
    | (.error e, payload) => return ⟨[], .error e, r, payload⟩
    | (.ok byte, payload) =>
      (← r.loadByte byte r.dataBits).cell state (r.tuning.cell false) payload
  else if state < dataEnd then
    ({ r with bits := r.bits.next.2 } : Registers).cell state (r.tuning.cell r.bits.next.1) payload
  else if state < parityEnd then
    r.cell state (r.tuning.cell (r.parity.bit r.byte)) payload
  else if state < stopEnd then
    r.cell state r.tuning.high payload
  else
    return ⟨[.byte r.byte], .ok 0, { r with state := some 0 }, payload⟩

/-- Data in a defined format, which is read from the first three bytes. -/
def definedData (r : Registers) (payload : ByteStream) : Except Crash Turn := do
  match r.state with
  | some state => r.definedCell state payload
  | none =>
    match ← StreamReader.byte payload with
    | (.error e, payload) => return ⟨[], .error e, r, payload⟩
    | (.ok bits, payload) =>
      let told := if 8 < bits then [.note (.tooManyDataBits bits)] else []
      let r := { r with dataBits := min bits.toNat 8 }
      match ← StreamReader.byte payload with
      | (.error e, payload) => return ⟨told, .error e, r, payload⟩
      | (.ok letter, payload) =>
        let told := told ++
          if (Parity.ofLetter? letter).isNone then [.note (.unknownParity letter)] else []
        let r := { r with parity := (Parity.ofLetter? letter).getD .none }
        match ← StreamReader.byte payload with
        | (.error e, payload) => return ⟨told, .error e, r, payload⟩
        | (.ok stopBits, payload) =>
          let r := { r with stopBits }
          let told := told ++ [.note (.framing r.dataBits r.parity.letter r.stopBits.toNat)]
          return (← r.definedCell 0 payload).telling told

/-- Carrier, a dummy byte and carrier again. -/
def carrierWithDummy (r : Registers) (payload : ByteStream) : Except Crash Turn := do
  match r.state with
  | none =>
    match ← StreamReader.number 2 payload with
    | (.error e, payload) => return ⟨[], .error e, r, payload⟩
    | (.ok before, payload) =>
      match ← StreamReader.number 2 payload with
      | (.error e, payload) => return ⟨[], .error e, r, payload⟩
      | (.ok carrierAfter, payload) =>
        let bits ← loopOver dummyFrame 10
        return ⟨[.note (.dummyByte before carrierAfter), .carrier true, r.tuning.high],
          .ok (r.tuning.bitTime before), { r with carrierAfter, bits, state := some 1 }, payload⟩
  | some state =>
    if state ≤ 10 then
      let arrival := if state = 10 then [.byte dummyByte] else []
      let next ← increment state
      return ⟨[.carrier false, r.tuning.cell !r.bits.next.1] ++ arrival,
        .ok (r.tuning.bitTime 1), { r with bits := r.bits.next.2, state := some next }, payload⟩
    return ⟨[.carrier true, r.tuning.high], .ok (r.tuning.bitTime r.carrierAfter),
      { r with state := none }, payload⟩

/-- A chunk of a single unit, which reads its payload and then does what `act` says with what it
has read; the base tone is the last part of that. -/
def single {α : Type} (r : Registers) (payload : ByteStream) (read : StreamReader α)
    (act : α → List Signal × Cycles × Binary32) : Except Crash Turn := do
  match ← read payload with
  | (.error e, payload) => return ⟨[], .error e, r, payload⟩
  | (.ok a, payload) =>
    let (signals, delay, base) := act a
    return ⟨signals, .ok delay, { r with base }, payload⟩

/-- A chunk of a single unit that only tells something. -/
def note (r : Registers) (payload : ByteStream) (notice : Notice) : Turn :=
  ⟨[.note notice], .ok (r.tuning.bitTime 1), r, payload⟩

/-- A binary32 number. -/
def binary32 : StreamReader Binary32 := do return ⟨UInt32.ofNat (← StreamReader.number 4)⟩

/-- The next unit of a chunk. -/
def play (r : Registers) (id : UInt16) (payload : ByteStream) : Except Crash Turn :=
  match ChunkKind.ofId id with
  | .origin => do
    let (text, payload) ← payload.text
    return r.note payload (.origin text)
  | .implicitData => r.standardData payload
  | .definedData => r.definedData payload
  | .carrier =>
    r.single payload (StreamReader.number 2) fun n =>
      ([.carrier true, r.tuning.high], r.tuning.bitTime n, r.base)
  | .carrierWithDummy => r.carrierWithDummy payload
  | .integerGap =>
    r.single payload (StreamReader.number 2) fun n =>
      ([.tone .zero, .note (.gap (r.tuning.halfTime n))], r.tuning.halfTime n, r.base)
  | .baseFrequency =>
    r.single payload binary32 fun hertz =>
      if hertz.isFinite && hertz.isPositive then
        ([.note (.frequency hertz)], (Tuning.mk r.clock hertz).bitTime 1, hertz)
      else ([.note (.invalidFrequency hertz)], r.tuning.bitTime 1, r.base)
  | .securityCycles => return r.note payload .securityCycles
  | .phaseChange => return r.note payload .phaseChange
  | .floatGap =>
    r.single payload binary32 fun seconds =>
      if seconds.isFinite && seconds.isNonnegative then
        ([.tone .zero, .note (.gapSeconds seconds)], r.clock.cyclesOfSeconds seconds.widen, r.base)
      else ([.tone .zero, .note (.invalidGap seconds)], 0, r.base)
  | .unknown => return r.note payload (.unknownChunk id)

/-- The carrier is there only while a carrier tone plays: any other chunk lowers it first. -/
def lowered (id : UInt16) : List Signal :=
  if ChunkKind.ofId id = .carrier ∨ ChunkKind.ofId id = .carrierWithDummy then []
  else [.carrier false]

/-- The next unit of a chunk that has been taken in hand, which is kept if it goes on. -/
def perform (r : Registers) (told : List Signal) (id : UInt16) (payload : ByteStream) :
    Except Crash (Played Registers) := do
  let turn ← r.play id payload
  let signals := told ++ lowered id ++ turn.signals
  match turn.delay with
  | .error e => return { signals, delay := .error e, tape := turn.registers }
  | .ok delay =>
    let chunk := if turn.registers.state.isSome then some (id, turn.payload) else none
    return { signals, delay := .ok (min delay maxDelay), tape := { turn.registers with chunk } }

/-- The chunk at a position. -/
def readChunk : StreamReader Chunk := do
  let id ← StreamReader.number 2
  let length ← StreamReader.number 4
  let payload ← StreamReader.bytes length
  return ⟨UInt16.ofNat id, payload⟩

/-- Play the next unit of work. -/
def poll (r : Registers) : Except Crash (Played Registers) := do
  match r.chunk with
  | some (id, payload) => ({ r with chunk := none } : Registers).perform [] id payload
  | none =>
    if r.stream.atEnd then
      return { signals := [], delay := .ok idleDelay, tape := r }
    match ← readChunk r.stream with
    | (.error e, stream) =>
      return { signals := [], delay := .error e, tape := { r with state := none, stream } }
    | (.ok c, stream) =>
      ({ r with state := none, stream } : Registers).perform
        [.note (.chunk c.id c.payload.length)] c.id (.start .uefChunk c.payload)

/-- Back to the first chunk, register by register. -/
def rewind (r : Registers) : Registers :=
  { r with
    stream := r.stream.seek headerLength
    chunk := none
    state := none
    base := defaultBase
    byte := 0
    bits := .ofBytes #[]
    dataBits := 8
    parity := .none
    stopBits := 1
    carrierAfter := 0 }

/-- The whole image has been played. -/
def isFinished (r : Registers) : Bool := r.chunk.isNone && r.stream.atEnd

/-! ### Opening -/

/-- The registers of a new decoder. -/
def fresh (stream : ByteStream) (clock : Clock) : Registers where
  stream := stream
  clock := clock
  chunk := none
  state := none
  base := defaultBase
  byte := 0
  bits := .ofBytes #[]
  dataBits := 8
  parity := .none
  stopBits := 1
  carrierAfter := 0

/-- The minor version, if the major version is zero. -/
def readVersion : StreamReader UInt8 := do
  let minor ← StreamReader.byte
  let major ← StreamReader.byte
  if major = 0 then return minor else StreamReader.fail (.unsupportedVersion major minor)

/-- Open an image, whose header has to be in order. -/
def load (image : List UInt8) (clock : Clock) :
    Except Crash (Except Error (Notice × Registers)) := do
  if magic.isPrefixOf image then
    match ← readVersion ((ByteStream.start .uefImage image).seek magic.length) with
    | (.error e, _) => return .error e
    | (.ok minor, stream) => return .ok (.version 0 minor, (fresh stream clock).rewind)
  else return .error .unknownFormat

end Registers

end Cassette.Tape.Uef
