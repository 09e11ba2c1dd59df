/-
# Call records

A call record carries points across a call.  The caller makes it, fills in the points of the
arguments and hands it over; the callee claims it on entry if it was made for its signature, and
before it returns sets the point of the result.  At most one record waits for its callee, and
looking for it takes it away whether it fits or not.
-/
import Provenance.Store.Basic

namespace Provenance.Store

/-- How many arguments of a call can have a point. -/
def maxArgSlots : Nat := 6

/-- A new record for a signature. -/
def createRecord (s : Store) (signature : String) : Nat × Store :=
  (s.records.nextId,
    { s with records := s.records.add ⟨signature, List.replicate maxArgSlots none, none⟩ })

def record? (s : Store) (id : Nat) : Option CallRecord := s.records.get? id

/-- Sets the point of an argument. -/
def setArg (s : Store) (id slot : Nat) (point : Option Point) : Except StoreError Store :=
  if slot < maxArgSlots then
    .ok { s with records := s.records.modify id fun r => { r with args := r.args.set slot point } }
  else .error (.slotOutOfRange slot maxArgSlots)

/-- The point of an argument; a slot that does not exist has none. -/
def argPoint (s : Store) (id slot : Nat) : Option Point := do
  let r ← s.record? id
  (r.args[slot]?).join

/-- Hands a record to the next method that starts. -/
def handOver (s : Store) (id : Nat) : Store := { s with pending := some id }

/-- Claims the waiting record if it was made for the signature; otherwise it is lost. -/
def claim (s : Store) (signature : String) : Option Nat × Store :=
  let left := { s with pending := none }
  match s.pending with
  | none => (none, left)
  | some id =>
    match s.record? id with
    | none => (none, left)
    | some r => (if s.isActive ∧ r.signature = signature then some id else none, left)

/-- Sets the point of the result. -/
def setReturned (s : Store) (id : Nat) (point : Option Point) : Store :=
  { s with records := s.records.modify id fun r => { r with returned := point } }

def returnedPoint (s : Store) (id : Nat) : Option Point := (s.record? id).bind CallRecord.returned

end Provenance.Store
