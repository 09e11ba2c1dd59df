/-
# Maps that keep nothing alive

A map from objects to values.  An entry does not keep its object alive; when the object is gone
the entry is dead, and it stays in the map until the map is purged.  Which objects are alive is
the business of whoever holds them, so `purge` is told.  Numbers of objects are never reused, so
nobody can ask for a dead entry.
-/
namespace Provenance

/-- Objects are known by number. -/
abbrev ObjectId := Nat

structure WeakMap (α : Type) where
  entries : List (ObjectId × α)
  deriving Repr

namespace WeakMap

variable {α : Type}

def empty : WeakMap α := ⟨[]⟩

instance : Inhabited (WeakMap α) := ⟨empty⟩

def get? (m : WeakMap α) (o : ObjectId) : Option α := m.entries.lookup o

/-- Replaces the entry of an object or adds one at the end. -/
def put (o : ObjectId) (a : α) : List (ObjectId × α) → List (ObjectId × α)
  | [] => [(o, a)]
  | (o', b) :: rest => if o' = o then (o, a) :: rest else (o', b) :: put o a rest

def insert (m : WeakMap α) (o : ObjectId) (a : α) : WeakMap α := ⟨put o a m.entries⟩

/-- The value of an object, after adding the given one if there is none; the flag says whether it
was added. -/
def getOrInsert (m : WeakMap α) (o : ObjectId) (a : α) : α × Bool × WeakMap α :=
  match m.get? o with
  | some b => (b, false, m)
  | none => (a, true, m.insert o a)

/-- Changes the value of an object in place, after adding the given one if there is none. -/
def update (m : WeakMap α) (o : ObjectId) (a : α) (f : α → α) : WeakMap α :=
  m.insert o (f ((m.get? o).getD a))

def remove (m : WeakMap α) (o : ObjectId) : WeakMap α := ⟨m.entries.filter fun e => e.1 ≠ o⟩

/-- Drops the dead entries. -/
def purge (m : WeakMap α) (alive : ObjectId → Bool) : WeakMap α :=
  ⟨m.entries.filter fun e => alive e.1⟩

/-- How many entries a purge drops. -/
def deadCount (m : WeakMap α) (alive : ObjectId → Bool) : Nat :=
  (m.entries.filter fun e => !alive e.1).length

/-- The number of entries, dead ones included. -/
def size (m : WeakMap α) : Nat := m.entries.length

def isEmpty (m : WeakMap α) : Bool := m.entries.isEmpty

end WeakMap

end Provenance
