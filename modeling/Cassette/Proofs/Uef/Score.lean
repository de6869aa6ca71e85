import Cassette.Proofs.Tape.Beat
import Cassette.Tape.Uef.Basic

/-!
# The score of a UEF image

A tape plays its image one unit of work at a time.  The score of an image is the same
music written out in one go: chunk after chunk the list of its beats, each with what it
does to the machine and the time that it takes.  Nothing is carried from one chunk to the
next except the base tone.

## Main definitions

* `Beat.idle`, `Beat.sound`, `Beat.short` — the beats that occur.
* `Score.chunk` — the beats of one chunk over a base tone.
* `Score.baseAfter` — the base tone after a chunk.
* `score` — the beats of a list of chunks.
-/

namespace Cassette.Tape

namespace Beat

/-- Nothing is left to play. -/
def idle : Beat := ⟨[], .ok idleDelay⟩

/-- The carrier takes a level, and the other calls follow.  Delays are cut to the longest
one. -/
def sound (carrier : Bool) (calls : List Signal) (delay : Cycles) : Beat :=
  ⟨.carrier carrier :: calls, .ok (min delay maxDelay)⟩

/-- A payload is too short for a read of `needed` bytes at `offset`. -/
def short (calls : List Signal) (offset needed : Nat) (payload : List UInt8) : Beat :=
  ⟨calls, .error (.truncated .uefChunk offset needed (payload.length - offset))⟩

end Beat

namespace Uef

namespace Score

/-! ### Cells -/

/-- One bit on the wire: the base tone for a clear bit and its double for a set one.  A
byte may arrive with it. -/
def cell (t : Tuning) (arrival : List Signal) (bit : Bool) : Beat :=
  .sound false (.tone (if bit then t.base.double else t.base) :: arrival) (t.bitTime 1)

/-- The time of one bit without a tone. -/
def silence (t : Tuning) : Beat := .sound false [] (t.bitTime 1)

/-- The low `count` bits of a number, the least significant first. -/
def bits (t : Tuning) (count value : Nat) : List Beat :=
  (List.range count).map fun i => cell t [] (value.testBit i)

/-! ### Data -/

/-- A byte between a start bit and a stop bit, with which it arrives. -/
def standardFrame (t : Tuning) (b : UInt8) : List Beat :=
  cell t [] false :: bits t 8 b.toNat ++ [cell t [.byte b] true]

/-- Data in the standard format. -/
def standardData (t : Tuning) (payload : List UInt8) : List Beat :=
  if payload = [] then [silence t] else payload.flatMap (standardFrame t)

/-- The set bits of a byte's worth of data. -/
def ones (value : Nat) : Nat := ((List.range 8).filter value.testBit).length

/-- The parity bit, which makes the number of set bits odd or even. -/
def parityBit? : Parity → Nat → Option Bool
  | .none, _ => Option.none
  | .odd, value => some (ones value % 2 = 0)
  | .even, value => some (ones value % 2 = 1)

/-- A byte in a defined format.  As much of it as fits the frame arrives after the last
stop bit, in no time. -/
def definedFrame (t : Tuning) (f : Framing) (b : UInt8) : List Beat :=
  let value := b.toNat % 1 <<< f.dataBits
  cell t [] false :: bits t f.dataBits value
    ++ (parityBit? f.parity value).toList.map (cell t [])
    ++ List.replicate f.stopBits.toNat (cell t [] true)
    ++ [.sound false [.byte (UInt8.ofNat value)] 0]

/-- A frame holds eight data bits at most, however many a payload asks for. -/
theorem usableBits_le (bits : UInt8) : min bits.toNat 8 ≤ 8 := Nat.min_le_right ..

/-- Data in a defined format: the format, the bytes, and the time of one bit. -/
def definedData (t : Tuning) : List UInt8 → List Beat
  | bits :: letter :: stopBits :: data =>
    let parity := (Parity.ofLetter? letter).getD .none
    let f : Framing := ⟨min bits.toNat 8, parity, stopBits, usableBits_le bits⟩
    data.flatMap (definedFrame t f) ++ [silence t]
  | payload => [.short [.carrier false] payload.length 1 payload]

/-! ### Carrier -/

/-- A number of periods of carrier. -/
def tone (t : Tuning) (periods : Nat) : Beat :=
  .sound true [.tone t.base.double] (t.bitTime periods)

/-- A carrier tone. -/
def carrier (t : Tuning) : List UInt8 → List Beat
  | a :: b :: _ => [tone t (littleEndian [a, b])]
  | payload => [.short [] 0 2 payload]

/-- The cells of the dummy byte, the first in bit 0; a set bit sounds the base tone. -/
def dummyPattern : Nat := 0x354

/-- A carrier tone, the dummy byte, and a carrier tone. -/
def carrierWithDummy (t : Tuning) : List UInt8 → List Beat
  | a :: b :: c :: d :: _ =>
    tone t (littleEndian [a, b]) ::
      (List.range 10).map (fun i =>
        cell t (if i = 9 then [.byte 0xAA] else []) (!dummyPattern.testBit i))
      ++ [tone t (littleEndian [c, d])]
  | a :: b :: more => [.short [] 2 2 (a :: b :: more)]
  | payload => [.short [] 0 2 payload]

/-! ### Gaps and the base tone -/

/-- A gap in half periods of the base tone. -/
def integerGap (t : Tuning) : List UInt8 → List Beat
  | a :: b :: _ => [.sound false [.tone .zero] (t.halfTime (littleEndian [a, b]))]
  | payload => [.short [.carrier false] 0 2 payload]

/-- The binary32 number of four bytes. -/
def binary32 (bytes : List UInt8) : Binary32 := ⟨UInt32.ofNat (littleEndian bytes)⟩

/-- A gap in seconds, which takes no time if it is negative or not finite. -/
def floatGap (t : Tuning) : List UInt8 → List Beat
  | a :: b :: c :: d :: _ =>
    let seconds := binary32 [a, b, c, d]
    [.sound false [.tone .zero]
      (if seconds.isFinite && seconds.isNonnegative then t.clock.cyclesOfSeconds seconds.widen
        else 0)]
  | payload => [.short [.carrier false] 0 4 payload]

/-- The base tone that a payload asks for, if it is finite and positive. -/
def newBase? : List UInt8 → Option Binary32
  | a :: b :: c :: d :: _ =>
    let hertz := binary32 [a, b, c, d]
    if hertz.isFinite && hertz.isPositive then some hertz else none
  | _ => none

/-- A change of the base tone, which takes the time of one bit of the tone after it. -/
def baseFrequency (t : Tuning) : List UInt8 → List Beat
  | a :: b :: c :: d :: _ => [silence { t with base := (newBase? [a, b, c, d]).getD t.base }]
  | payload => [.short [.carrier false] 0 4 payload]

/-! ### Chunks -/

/-- The beats of a chunk. -/
def chunk (t : Tuning) (c : Chunk) : List Beat :=
  match c.kind with
  | .implicitData => standardData t c.payload
  | .definedData => definedData t c.payload
  | .carrier => carrier t c.payload
  | .carrierWithDummy => carrierWithDummy t c.payload
  | .integerGap => integerGap t c.payload
  | .baseFrequency => baseFrequency t c.payload
  | .floatGap => floatGap t c.payload
  | .origin | .securityCycles | .phaseChange | .unknown => [silence t]

/-- The base tone after a chunk. -/
def baseAfter (base : Binary32) (c : Chunk) : Binary32 :=
  if c.kind = .baseFrequency then (newBase? c.payload).getD base else base

end Score

/-- The beats of a list of chunks, the first of them over the given base tone. -/
def score (clock : Clock) (base : Binary32) : List Chunk → List Beat
  | [] => []
  | c :: chunks => Score.chunk ⟨clock, base⟩ c ++ score clock (Score.baseAfter base c) chunks

end Uef

end Cassette.Tape
