/-
# What an instruction works on

The operand stack of a method, its locals and the world around it, with the small actions that
instructions and hooks are made of.
-/
import Provenance.Machine.World

namespace Provenance

structure Bench where
  world : World
  locals : Array Value
  /-- The operands, the top first. -/
  stack : List Value
  deriving Repr

/-- An action of an instruction or a hook. -/
abbrev Work (α : Type) : Type := Action Bench α

namespace Work

/-- Something read off the heap. -/
@[inline] def fromHeap {α : Type} (f : Heap → Except RunError α) : Work α :=
  .inspect fun b => f b.world.heap

@[inline] def onHeap {α : Type} (f : Heap → α × Heap) : Work α := .update fun b =>
  let (a, heap) := f b.world.heap
  (a, { b with world.heap := heap })

@[inline] def onStore {α : Type} (f : Store → α × Store) : Work α := .update fun b =>
  let (a, store) := f b.world.store
  (a, { b with world.store := store })

@[inline] def onWorld {α : Type} (f : World → α × World) : Work α := .update fun b =>
  let (a, world) := f b.world
  (a, { b with world })

/-! ## 1. The stack -/

@[inline] def push (v : Value) : Work Unit :=
  .update fun b => ((), { b with stack := v :: b.stack })

/-- Takes the top, or fails in the given way. -/
@[inline] def pop (underflow : RunError) : Work Value := fun b =>
  match b.stack with
  | [] => (.error underflow, b)
  | v :: rest => (.ok v, { b with stack := rest })

/-- Takes that many values, the deepest first, or none and fails. -/
@[inline] def popMany (underflow : RunError) (n : Nat) : Work (List Value) := fun b =>
  if b.stack.length < n then (.error underflow, b)
  else (.ok (b.stack.take n).reverse, { b with stack := b.stack.drop n })

@[inline] def popInt (underflow : RunError) : Work Int32 := do
  let v ← pop underflow
  fromHeap fun h => h.int v

/-- Takes a reference, which must not be null. -/
@[inline] def popTarget (underflow : RunError) (context : String) : Work ObjectId := do
  let v ← pop underflow
  fromHeap fun h => h.target context v

/-! ## 2. The heap -/

/-- Adds an object and gives its number. -/
@[inline] def allocate (x : HeapObject) : Work ObjectId := onHeap fun h => h.allocate x

/-- Stores a value in an array. -/
@[inline] def storeElement (o : ObjectId) (index : Int32) (v : Value) : Work Unit := do
  let i ← fromHeap fun h => h.elementPlace o index
  onHeap fun h => ((), h.putElement o i v)

/-- Changes the heap by an operation that may fail. -/
def changeHeap (f : Heap → Except RunError Heap) : Work Unit := do
  let h ← fromHeap f
  onHeap fun _ => ((), h)

end Work

end Provenance
