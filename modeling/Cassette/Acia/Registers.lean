/-!
# The registers of the serial chip

The status register as its bits and as a byte, and what the bits of the control
register select.

| status bit | meaning                                 |
|------------|-----------------------------------------|
| 0          | the receive register is full            |
| 1          | the transmit register is empty          |
| 2          | carrier detect                          |
| 3          | clear to send, which is active low      |
| 7          | an interrupt is requested               |

## Main definitions

* `Status` and `Status.byte`.
* `Control` — the meaning of a control byte.
-/

namespace Cassette.Acia

/-- The status register. -/
structure Status where
  receiveFull : Bool := false
  transmitEmpty : Bool := false
  carrier : Bool := false
  /-- The clear-to-send input is high, which forbids sending. -/
  sendHeld : Bool := false
  interrupt : Bool := false
  deriving DecidableEq

namespace Status

/-- The register as a byte; the bits in between are never set. -/
def byte (s : Status) : UInt8 :=
  UInt8.ofNat (s.receiveFull.toNat + 2 * s.transmitEmpty.toNat + 4 * s.carrier.toNat +
    8 * s.sendHeld.toNat + 128 * s.interrupt.toNat)

/-- The register after a master reset.  Clear-to-send is an input and survives; the
transmit register counts as empty and the carrier as present. -/
def reset (s : Status) : Status :=
  { sendHeld := s.sendHeld, transmitEmpty := true, carrier := true }

/-- The register after the carrier line takes a level.  Only a rise requests an
interrupt. -/
def setCarrier (s : Status) (level : Bool) : Status :=
  if !level then { s with carrier := false }
  else if s.carrier then s
  else { s with carrier := true, interrupt := true }

/-- The register after a byte has arrived. -/
def receive (s : Status) : Status := { s with receiveFull := true, interrupt := true }

/-- The register after the byte that arrived has been read. -/
def acknowledge (s : Status) : Status := { s with receiveFull := false, interrupt := false }

end Status

/-! ### Control -/

namespace Control

/-- The low two bits together ask for a master reset. -/
def isReset (control : UInt8) : Bool := control.toNat % 4 = 3

/-- Bit 7 lets the chip request interrupts. -/
def interruptEnabled (control : UInt8) : Bool := control.toNat.testBit 7

/-- Stop bits and parity bits for each setting of bits 2 to 4. -/
def wordTable : List (Nat × Nat) :=
  [(2, 1), (2, 1), (1, 1), (1, 1), (2, 0), (1, 0), (1, 1), (1, 1)]

/-- The bits of a character on the wire: seven or eight data bits, which bit 4
chooses, and the stop and parity bits. -/
def bitsPerByte (control : UInt8) : Nat :=
  let (stopBits, parityBits) := wordTable.getD (control.toNat / 4 % 8) (0, 0)
  (if control.toNat.testBit 4 then 8 else 7) + stopBits + parityBits

/-- The request-to-send output, which is low only for the setting `10` of bits 6 and 5. -/
def requestToSend (control : UInt8) : Bool :=
  !control.toNat.testBit 6 || control.toNat.testBit 5

end Control

end Cassette.Acia
