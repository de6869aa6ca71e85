import Cassette.Acia.Basic

/-!
# The serial ULA

One write-only register that clocks and routes the serial chip.

| bits | meaning                                |
|------|----------------------------------------|
| 0–2  | transmit rate                          |
| 3–5  | receive rate                           |
| 6    | RS423 is selected, and not the cassette |
| 7    | the cassette motor runs                |
-/

namespace Cassette

/-- The register of the serial ULA. -/
structure SerialUla where
  register : UInt8 := 0
  deriving DecidableEq

namespace SerialUla

/-- Bits in a second for each setting of a rate field. -/
def rates : List UInt32 := [19200, 9600, 4800, 2400, 1200, 300, 150, 75]

/-- The rate that the low three bits of `field` select. -/
def rate (field : Nat) : UInt32 := rates.getD (field % 8) 19200

/-- The transmit rate. -/
def transmitRate (u : SerialUla) : UInt32 := rate u.register.toNat

/-- The receive rate. -/
def receiveRate (u : SerialUla) : UInt32 := rate (u.register.toNat / 8)

/-- The receive side goes to RS423. -/
def selectsRs423 (u : SerialUla) : Bool := u.register.toNat.testBit 6

/-- The motor runs. -/
def motorOn (u : SerialUla) : Bool := u.register.toNat.testBit 7

/-- What a register does to the chip: the rate, then the motor, then the selection. -/
def apply {ρ : Type} (u : SerialUla) (a : Acia ρ) : Except Acia.Fault (Acia ρ) := do
  let a ← a.setReceiveRate u.receiveRate
  let a ← a.switchMotor u.motorOn
  a.selectRs423 u.selectsRs423

/-- Latch a value and apply it. -/
def write {ρ : Type} (value : UInt8) (a : Acia ρ) : Except Acia.Fault (SerialUla × Acia ρ) := do
  let u : SerialUla := ⟨value⟩
  return (u, ← u.apply a)

/-- What the data bus holds while a write-only register is read. -/
def busValue : UInt8 := 0xFE

/-- A read gives zero, and latches what the bus holds. -/
def read {ρ : Type} (a : Acia ρ) : Except Acia.Fault (UInt8 × SerialUla × Acia ρ) := do
  let (u, a) ← write busValue a
  return (0, u, a)

end SerialUla

end Cassette
