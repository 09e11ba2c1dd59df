/-
# Which objects are alive

An object is alive as long as something refers to it: a value that is held, or an element or field
of an object that is alive.  Objects die one by one as their last reference goes, so a ring of
objects that refer to each other never dies.  `Heap.counts` finds the dead by counting: it starts
from all references there are, and whenever an object has none left it takes away those that the
object itself made.
-/
import Provenance.Machine.Heap

namespace Provenance

namespace Heap

/-- One more reference to an object. -/
def countUp (counts : Array Nat) (o : ObjectId) : Array Nat := counts.modify (o - 1) (· + 1)

/-- One reference less to each of some objects, with those that have none left. -/
def release (counts : Array Nat) : List ObjectId → Array Nat × List ObjectId
  | [] => (counts, [])
  | o :: rest =>
    let count := counts.getD (o - 1) 0
    let (counts, dead) := release (counts.setIfInBounds (o - 1) (count - 1)) rest
    (counts, if count = 1 then o :: dead else dead)

/-- Lets the given objects die, then those that nothing else refers to, and so on; every object
dies at most once, so `fuel` is the number of objects. -/
def bury (h : Heap) : Nat → Array Nat → List ObjectId → Array Nat
  | 0, counts, _ => counts
  | _, counts, [] => counts
  | fuel + 1, counts, o :: rest =>
    let (counts, dead) := release counts (h.object o).references
    h.bury fuel counts (dead ++ rest)

/-- The number of references to each object, those of dead objects not counted. -/
def counts (h : Heap) (held : List Value) : Array Nat :=
  let ids := h.objects.ids
  let zero := Array.replicate ids.length 0
  let fromOutside := (held.filterMap Value.object?).foldl countUp zero
  let all := ids.foldl (fun counts o => (h.object o).references.foldl countUp counts) fromOutside
  h.bury ids.length all (ids.filter fun o => all.getD (o - 1) 0 = 0)

/-- Whether an object is alive if the given values are held. -/
def isAlive (h : Heap) (held : List Value) (o : ObjectId) : Bool :=
  (h.counts held).getD (o - 1) 0 ≠ 0

/-- The same for many objects: the counting is done once, when the first is asked for. -/
def alive (h : Heap) (held : Thunk (List Value)) : ObjectId → Bool :=
  let counts : Thunk (Array Nat) := .mk fun _ => h.counts held.get
  fun o => counts.get.getD (o - 1) 0 ≠ 0

theorem alive_eq (h : Heap) (held : Thunk (List Value)) (o : ObjectId) :
    h.alive held o = h.isAlive held.get o := rfl

end Heap

end Provenance
