/-
# The provenance store

The store is the ledger with everything that finds its way into it: which object has which
tracker, which field value came from which point, the tables of literals, the call records, the
record that waits for its callee, and how often tracking is suspended.
-/
import Provenance.Store.Ledger
import Provenance.Store.Settings
import Provenance.Store.WeakMap

namespace Provenance

/-- The table of literals of one class, whose text is the content of an origin. -/
structure ConstantTable where
  className : String
  tracker : TrackerId
  deriving DecidableEq, Repr

/-- Points that travel beside the operands and the result of one call. -/
structure CallRecord where
  signature : String
  /-- One place for each argument slot. -/
  args : List (Option Point)
  returned : Option Point
  deriving DecidableEq, Repr

structure Store where
  ledger : Ledger
  settings : StoreSettings
  /-- The tracker of each object. -/
  objects : WeakMap TrackerId
  /-- How many lookups and insertions there have been. -/
  operations : Nat
  /-- The points of the values in the fields of each object, by field key. -/
  fields : WeakMap (List (String × Point))
  /-- The tables of literals by class number. -/
  tables : List ConstantTable
  records : Table CallRecord
  /-- The record handed over and not yet claimed. -/
  pending : Option Nat
  /-- How many suspensions are in force. -/
  suspended : Nat
  deriving Repr

namespace Store

def empty (settings : StoreSettings) : Store :=
  ⟨.empty, settings, .empty, 0, .empty, [], .empty, none, 0⟩

instance : Inhabited Store := ⟨empty .default⟩

/-- Whether tracking is on. -/
def isActive (s : Store) : Bool := s.suspended = 0

def suspend (s : Store) : Store := { s with suspended := s.suspended + 1 }

def resume (s : Store) : Store := { s with suspended := s.suspended - 1 }

/-- Adds a tracker and gives its number. -/
def addTracker (s : Store) (t : Tracker) : TrackerId × Store :=
  let (id, ledger) := s.ledger.add t
  (id, { s with ledger })

/-- Runs an operation of the ledger that may be refused. -/
def onLedger (s : Store) (f : Ledger → Except StoreError Ledger) : Except StoreError Store :=
  match f s.ledger with
  | .ok ledger => .ok { s with ledger }
  | .error e => .error e

end Store

end Provenance
