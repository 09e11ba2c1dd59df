/-
# Settings of the machine
-/
import Provenance.Store.Settings

namespace Provenance

structure MachineSettings where
  /-- How many calls may be nested. -/
  maxCallDepth : Nat
  /-- How many instructions one call from outside may take, nested calls included. -/
  maxInstructions : Nat
  deriving DecidableEq, Repr

namespace MachineSettings

def default : MachineSettings := ⟨256, 10000000⟩

instance : Inhabited MachineSettings := ⟨default⟩

/-- The settings of an environment; what is no positive count is passed over. -/
def ofEnvironment (env : Environment) : MachineSettings :=
  let positive? (name : String) : Option Nat :=
    (env name).bind (Numeral.positive? Numeral.wordBound)
  { maxCallDepth := (positive? "FLOWTRACK_MAX_CALL_DEPTH").getD default.maxCallDepth
    maxInstructions := (positive? "FLOWTRACK_MAX_INSTRUCTIONS").getD default.maxInstructions }

/-- The settings of a record; a missing field has its default. -/
def decode? (j : Json) : Option MachineSettings := do
  match ← j.record? ["max_call_depth", "max_instructions"] with
  | [depth, instructions] =>
    let count (default : Nat) : Option Json → Option Nat
      | none => some default
      | some j => j.asNat? Numeral.wordBound
    some ⟨← count default.maxCallDepth depth, ← count default.maxInstructions instructions⟩
  | _ => none

def encode (s : MachineSettings) : Json :=
  .object [("max_call_depth", .nat s.maxCallDepth), ("max_instructions", .nat s.maxInstructions)]

end MachineSettings

end Provenance
