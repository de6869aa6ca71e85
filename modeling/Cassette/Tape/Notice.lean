import Cassette.Clock
import Cassette.Binary32
import Cassette.Text.Hex

/-!
# Notices

What is worth telling about an image as it is opened and played, and about the
deck that plays it, with a level of importance and a text.
-/

namespace Cassette

/-- How important a notice is. -/
inductive Level where
  | debug
  | info
  | warn
  deriving DecidableEq

/-- The container format of an image. -/
inductive Tape.Format where
  | tapefile
  | uef
  deriving DecidableEq

/-- The name of a format. -/
def Tape.Format.name : Tape.Format → String
  | .tapefile => "tapefile"
  | .uef => "uef"

namespace Tape

/-- Something worth telling about an image. -/
inductive Notice where
  | inflated (packed unpacked : Nat)
  | detected (format : Format) (bytes : Nat)
  | version (major minor : UInt8)
  | chunk (id : UInt16) (bytes : Nat)
  | origin (text : String)
  | tooManyDataBits (bits : UInt8)
  | unknownParity (letter : UInt8)
  | framing (dataBits : Nat) (parity : Char) (stopBits : Nat)
  | dummyByte (before after : Nat)
  | gap (delay : Cycles)
  | gapSeconds (seconds : Binary32)
  | invalidGap (seconds : Binary32)
  | frequency (hertz : Binary32)
  | invalidFrequency (hertz : Binary32)
  | securityCycles
  | phaseChange
  | unknownChunk (id : UInt16)
  | invalidDivider (control : UInt8)
  deriving DecidableEq

namespace Notice

/-- How important a notice is: what is played is information, what is left out of
what the image asks for is a warning, and what never has an effect is for debugging. -/
def level : Notice → Level
  | .chunk .. | .securityCycles | .phaseChange => .debug
  | .tooManyDataBits _ | .unknownParity _ | .invalidGap _ | .invalidFrequency _
  | .unknownChunk _ | .invalidDivider _ => .warn
  | _ => .info

/-- The text of a notice. -/
def text : Notice → String
  | .inflated packed unpacked => s!"Inflated gzip tape image ({packed} -> {unpacked} bytes)"
  | .detected .tapefile bytes => s!"Detected a tapefile tape ({bytes} bytes)"
  | .detected .uef bytes => s!"Detected a UEF tape ({bytes} bytes)"
  | .version major minor => s!"UEF version {major}.{minor}"
  | .chunk id bytes => s!"UEF chunk {Text.Hex.word id}, {bytes} bytes"
  | .origin text => s!"UEF origin: {text}"
  | .tooManyDataBits bits => s!"Defined data with {bits} data bits, clamping to 8"
  | .unknownParity letter => s!"Unknown UEF parity {Text.Hex.byte letter}, assuming none"
  | .framing dataBits parity stopBits => s!"Defined data with {dataBits}{parity}{stopBits}"
  | .dummyByte before after =>
    s!"Carrier with dummy byte: {before} cycles before, {after} after"
  | .gap delay => s!"Tape gap of {delay.render}"
  | .gapSeconds seconds => s!"Tape gap of {seconds.render}s"
  | .invalidGap seconds => s!"Ignoring invalid tape gap of {seconds.render}s"
  | .frequency hertz => s!"Frequency change to {hertz.render} Hz"
  | .invalidFrequency hertz => s!"Ignoring invalid base frequency {hertz.render}"
  | .securityCycles => "Ignoring security cycles"
  | .phaseChange => "Ignoring polarity change"
  | .unknownChunk id => s!"Skipping unknown UEF chunk {Text.Hex.word id}"
  | .invalidDivider control =>
    s!"tapefile polled with invalid divider in control {Text.Hex.byte control}"

end Notice

end Tape

end Cassette
