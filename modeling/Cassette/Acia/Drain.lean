import Cassette.Acia.Basic

/-!
# A host that polls

A host without interrupts lets time pass in steps, and after each looks at the status
register and takes the byte that may have arrived.
-/

namespace Cassette.Acia

/-- What a polling host has seen. -/
structure Drained where
  bytes : Array UInt8 := #[]
  /-- The number of looks that showed a carrier. -/
  carrier : Nat := 0
  elapsed : Cycles := 0
  error : Option Tape.Error := none

variable {ρ : Type} [SerialPeer ρ]

/-- Look at the status register, and take the byte if there is one. -/
def look (a : Acia ρ) (seen : Drained) : Drained × Acia ρ :=
  let status := a.chip.shownStatus
  let seen := if status.carrier then { seen with carrier := seen.carrier + 1 } else seen
  if status.receiveFull then
    let (b, a) := a.read 1
    ({ seen with bytes := seen.bytes.push b }, a)
  else (seen, a)

/-- So many rounds of one step and one look, or fewer if the tape fails. -/
def drainRounds (step : Cycles) : Nat → Drained → Acia ρ → Except Fault (Drained × Acia ρ)
  | 0, seen, a => .ok (seen, a)
  | rounds + 1, seen, a => do
    let seen := { seen with elapsed := seen.elapsed + step }
    match ← a.poll step with
    | (some e, a) => return ({ seen with error := some e }, a)
    | (none, a) =>
      let (seen, a) := a.look seen
      drainRounds step rounds seen a

/-- Rounds of `step` until `cycles` have passed. -/
def drain (a : Acia ρ) (cycles step : Cycles) : Except Fault (Drained × Acia ρ) :=
  drainRounds step ((cycles.count + step.count - 1) / step.count) {} a

end Cassette.Acia
