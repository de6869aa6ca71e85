import Cassette.Text.Hex

/-!
# Why a tape image is refused

An image is refused when it is opened or while it plays; each reason carries what
its text mentions.
-/

namespace Cassette.Tape

/-- The part of an image that is being read; offsets count from its start. -/
inductive Region where
  | tapefile
  | uefImage
  | uefChunk
  deriving DecidableEq

/-- The name of a part of an image. -/
def Region.name : Region → String
  | .tapefile => "tapefile"
  | .uefImage => "UEF image"
  | .uefChunk => "UEF chunk"

/-- Why an image cannot be opened or played on. -/
inductive Error where
  /-- An escape byte of a tapefile is followed by one that means nothing there. -/
  | unexpectedEscape (byte : UInt8)
  /-- A UEF image announces a major version other than zero. -/
  | unsupportedVersion (major minor : UInt8)
  /-- A read of `needed` bytes at `offset` finds only `remaining`. -/
  | truncated (region : Region) (offset needed remaining : Nat)
  /-- A compressed image does not inflate. -/
  | corruptGzip
  /-- The image is neither a tapefile nor a UEF image. -/
  | unknownFormat
  deriving DecidableEq

/-- The text of an error. -/
def Error.message : Error → String
  | .unexpectedEscape byte => s!"unexpected escape byte {Text.Hex.byte byte} in tapefile"
  | .unsupportedVersion major minor => s!"unsupported UEF version {major}.{minor}"
  | .truncated region offset needed remaining =>
    s!"truncated {region.name} at offset {offset}: need {needed} bytes, {remaining} remain"
  | .corruptGzip => "corrupt gzip tape image"
  | .unknownFormat => "unrecognised tape image format"

end Cassette.Tape
