import Cassette.Tape.Cursor

/-!
# The chunks of a UEF image

After a header of twelve bytes a UEF image is a sequence of chunks, each an
identifier of two bytes, a length of four and as many bytes of payload, all least
significant byte first.

| id     | meaning                                    |
|--------|--------------------------------------------|
| `0000` | where the image comes from, as text        |
| `0100` | data, eight bits to a byte                 |
| `0104` | data in a format that the chunk defines    |
| `0110` | carrier                                    |
| `0111` | carrier with a dummy byte inside           |
| `0112` | gap, in half periods of the base tone      |
| `0113` | change of the base tone                    |
| `0114` | security cycles, which are passed over     |
| `0115` | change of phase, which is passed over      |
| `0116` | gap, in seconds                            |

## Main definitions

* `Chunk` and `Chunk.read`, `Chunk.encode` — one chunk, from bytes and to bytes.
* `ChunkKind` — what an identifier stands for.
* `header`, `readHeader` — the start of an image, to bytes and from bytes.
-/

namespace Cassette.Tape.Uef

/-- What a chunk is for. -/
inductive ChunkKind where
  | origin
  | implicitData
  | definedData
  | carrier
  | carrierWithDummy
  | integerGap
  | baseFrequency
  | securityCycles
  | phaseChange
  | floatGap
  | unknown
  deriving DecidableEq

/-- What an identifier stands for. -/
def ChunkKind.ofId (id : UInt16) : ChunkKind :=
  match id.toNat with
  | 0x0000 => .origin
  | 0x0100 => .implicitData
  | 0x0104 => .definedData
  | 0x0110 => .carrier
  | 0x0111 => .carrierWithDummy
  | 0x0112 => .integerGap
  | 0x0113 => .baseFrequency
  | 0x0114 => .securityCycles
  | 0x0115 => .phaseChange
  | 0x0116 => .floatGap
  | _ => .unknown

/-- One chunk of an image. -/
structure Chunk where
  id : UInt16
  payload : List UInt8
  deriving DecidableEq

namespace Chunk

/-- What the chunk is for. -/
def kind (c : Chunk) : ChunkKind := .ofId c.id

/-- The bytes of a chunk. -/
def encode (c : Chunk) : List UInt8 :=
  littleEndianBytes 2 c.id.toNat ++ littleEndianBytes 4 c.payload.length ++ c.payload

/-- The chunk at a position. -/
def read : Reader Chunk := do
  let id ← Reader.number 2
  let length ← Reader.number 4
  let payload ← Reader.bytes length
  return ⟨UInt16.ofNat id, payload⟩

end Chunk

/-! ### The header -/

/-- The bytes that a UEF image begins with. -/
def magic : List UInt8 := [0x55, 0x45, 0x46, 0x20, 0x46, 0x69, 0x6C, 0x65, 0x21, 0x00]

/-- The number of bytes before the first chunk. -/
def headerLength : Nat := 12

/-- The header of an image of version 0 with the given minor version. -/
def header (minor : UInt8) : List UInt8 := magic ++ [minor, 0]

/-- The minor version of an image, whose major version has to be zero. -/
def readHeader (image : List UInt8) : Except Error UInt8 := do
  if !magic.isPrefixOf image then throw .unknownFormat
  let minor ← (version (.seek .uefImage image magic.length)).1
  return minor
where
  version : Reader UInt8 := do
    let minor ← Reader.byte
    let major ← Reader.byte
    if major = 0 then return minor else Reader.fail (.unsupportedVersion major minor)

/-- The image with the given chunks. -/
def encode (minor : UInt8) (chunks : List Chunk) : List UInt8 :=
  header minor ++ chunks.flatMap Chunk.encode

end Cassette.Tape.Uef
