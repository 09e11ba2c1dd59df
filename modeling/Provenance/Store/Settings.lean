/-
# Settings of the store
-/
import Provenance.Json.Decode
import Provenance.Number.Numeral

namespace Provenance

/-- Looks up a variable of the environment. -/
abbrev Environment := String → Option String

structure StoreSettings where
  /-- Dead entries are dropped once in this many lookups and insertions; never if zero. -/
  purgeInterval : Nat
  /-- How many trackers are followed when a point is looked up. -/
  maxResolveDepth : Nat
  deriving DecidableEq, Repr

namespace StoreSettings

/-- How many trackers are followed if nothing else is said. -/
def defaultResolveDepth : Nat := 16

def default : StoreSettings := ⟨4096, defaultResolveDepth⟩

instance : Inhabited StoreSettings := ⟨default⟩

/-- The settings of an environment; what is no count is passed over. -/
def ofEnvironment (env : Environment) : StoreSettings :=
  let count? (name : String) : Option Nat := (env name).bind (Numeral.nat? Numeral.wordBound)
  { purgeInterval := (count? "FLOWTRACK_PURGE_INTERVAL").getD default.purgeInterval
    maxResolveDepth :=
      ((count? "FLOWTRACK_MAX_RESOLVE_DEPTH").map (max 1)).getD default.maxResolveDepth }

/-- The settings of a record; a missing field has its default. -/
def decode? (j : Json) : Option StoreSettings := do
  match ← j.record? ["purge_interval", "max_resolve_depth"] with
  | [interval, depth] =>
    let count (default : Nat) : Option Json → Option Nat
      | none => some default
      | some j => j.asNat? Numeral.wordBound
    some ⟨← count default.purgeInterval interval, ← count default.maxResolveDepth depth⟩
  | _ => none

def encode (s : StoreSettings) : Json :=
  .object [("purge_interval", .nat s.purgeInterval), ("max_resolve_depth", .nat s.maxResolveDepth)]

end StoreSettings

end Provenance
