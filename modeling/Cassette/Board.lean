import Cassette.SerialUla

/-!
# The serial board

The serial chip, the serial ULA beside it, and a shelf for the tape that was last taken
out of the deck.  Everything that can happen to the board is an operation, so that a
history of the board is a list of operations.

## Main definitions

* `Board` — the chip, the ULA and the shelf.
* `Operation` and `Reply` — what can happen, and what it answers.
* `Board.perform` and `Board.run` — one operation, and a history.
-/

namespace Cassette

/-- The serial chip, the serial ULA and the shelf. -/
structure Board (ρ : Type) where
  acia : Acia ρ
  ula : SerialUla := {}
  shelf : Option Tape := none

namespace Board

variable {ρ : Type}

/-- What can happen to a board. -/
inductive Operation (ρ : Type) where
  | read (address : UInt16)
  | write (address : UInt16) (value : UInt8)
  | reset
  | selectRs423 (selected : Bool)
  | setCarrier (level : Bool)
  | receive (byte : UInt8)
  | switchMotor (on : Bool)
  | setReceiveRate (rate : UInt32)
  | poll (cycles : Cycles)
  /-- Open an image and put it into the deck. -/
  | insert (data : List UInt8) (clock : Clock)
  /-- Put the tape in the deck on the shelf. -/
  | eject
  /-- Put the tape on the shelf into the deck. -/
  | reinsert
  | rewind
  | ulaWrite (value : UInt8)
  | ulaRead
  | ulaReset
  | attachPeer (peer : Option ρ)
  | attachTone (attached : Bool)
  | attachNoise (attached : Bool)

/-- What an operation answers. -/
inductive Reply where
  | none
  | byte (b : UInt8)
  /-- The image cannot be opened or played on. -/
  | failed (e : Tape.Error)
  /-- The format of the tape that has come out of the deck, if there was one. -/
  | takenOut (format : Option Tape.Format)

/-- A board with the given configuration. -/
def ofConfig (config : Acia.Config) : Except Acia.Fault (Board ρ) := do
  return { acia := ← Acia.ofConfig config }

/-- The board with its chip changed. -/
def withAcia (b : Board ρ) (a : Acia ρ) : Board ρ := { b with acia := a }

/-- A tape goes into the deck, and the one that it replaces on the shelf. -/
def load (b : Board ρ) (tape : Tape) : Except Acia.Fault (Reply × Board ρ) := do
  let (replaced, a) ← b.acia.insert tape
  return (.takenOut (replaced.map (·.format)),
    { b with acia := a, shelf := replaced.or b.shelf })

/-- One operation. -/
def perform [Acia.SerialPeer ρ] (b : Board ρ) :
    Operation ρ → Except Acia.Fault (Reply × Board ρ)
  | .read address =>
    let (value, a) := b.acia.read address
    .ok (.byte value, b.withAcia a)
  | .write address value => do return (.none, b.withAcia (← b.acia.write address value))
  | .reset => .ok (.none, b.withAcia b.acia.reset)
  | .selectRs423 selected => do return (.none, b.withAcia (← b.acia.selectRs423 selected))
  | .setCarrier level => .ok (.none, b.withAcia (b.acia.setCarrier level))
  | .receive byte => .ok (.none, b.withAcia (b.acia.receive byte))
  | .switchMotor on => do return (.none, b.withAcia (← b.acia.switchMotor on))
  | .setReceiveRate rate => do return (.none, b.withAcia (← b.acia.setReceiveRate rate))
  | .poll cycles => do
    let (e, a) ← b.acia.poll cycles
    return (e.elim .none .failed, b.withAcia a)
  | .insert data clock =>
    let (told, opened) := Tape.load data clock
    let b := b.withAcia (b.acia.tell told)
    match opened with
    | .error e => .ok (.failed e, b)
    | .ok tape => b.load tape
  | .eject => do
    let (tape, a) ← b.acia.eject
    return (.takenOut (tape.map (·.format)), { b with acia := a, shelf := tape.or b.shelf })
  | .reinsert =>
    match b.shelf with
    | none => .ok (.takenOut none, b)
    | some tape => { b with shelf := none }.load tape
  | .rewind => .ok (.none, b.withAcia b.acia.rewind)
  | .ulaWrite value => do
    let (ula, a) ← SerialUla.write value b.acia
    return (.none, { b with acia := a, ula })
  | .ulaRead => do
    let (value, ula, a) ← SerialUla.read b.acia
    return (.byte value, { b with acia := a, ula })
  | .ulaReset => .ok (.none, { b with ula := {} })
  | .attachPeer peer => .ok (.none, b.withAcia (b.acia.onChip ({ · with peer })))
  | .attachTone attached =>
    .ok (.none, b.withAcia (b.acia.onChip ({ · with toneAttached := attached })))
  | .attachNoise attached =>
    .ok (.none, b.withAcia (b.acia.onChip ({ · with noiseAttached := attached })))

/-- A history: operations one after another, up to the first that breaks the contract. -/
def run [Acia.SerialPeer ρ] (b : Board ρ) :
    List (Operation ρ) → Except Acia.Fault (List Reply × Board ρ)
  | [] => .ok ([], b)
  | op :: ops => do
    let (reply, b) ← b.perform op
    let (replies, b) ← b.run ops
    return (reply :: replies, b)

end Board

end Cassette
