/-
# The world a program runs in

The world is everything that outlasts a call: the heap, the provenance store, the instances of
string literals, what is held from outside, and the journal of scripted natives.

Instructions, hooks and natives are actions on a state that may fail; what an action did before it
failed stays done.
-/
import Provenance.Machine.Liveness
import Provenance.Store.Calls

namespace Provenance

/-- An action that may fail, on a state that stays as the action left it in either case. -/
abbrev Action (σ α : Type) : Type := ExceptT RunError (StateM σ) α

namespace Action

variable {σ α : Type}

/-- An action that only looks at the state. -/
@[inline] def inspect (f : σ → Except RunError α) : Action σ α := fun s => (f s, s)

/-- An action that changes the state and cannot fail. -/
@[inline] def update (f : σ → α × σ) : Action σ α := fun s =>
  let (a, s) := f s
  (.ok a, s)

/-- Runs an action: its outcome and the state it left. -/
@[inline] def outcome (x : Action σ α) (s : σ) : Except RunError α × σ := x s

end Action

/-- A call of a scripted native. -/
structure CallNote where
  /-- Owner, name and descriptor of the native. -/
  key : String
  args : List Value
  /-- The points of the arguments, and of one slot more than there are. -/
  points : List (Option Point)
  /-- Whether the caller had handed over a call record. -/
  recorded : Bool
  deriving Repr

structure World where
  heap : Heap
  store : Store
  /-- The one instance of each string literal. -/
  literals : List (String × ObjectId)
  /-- Values that are held outside. -/
  held : List Value
  /-- The calls of scripted natives, the latest first. -/
  journal : List CallNote
  deriving Repr

namespace World

def empty (settings : StoreSettings) : World := ⟨.empty, .empty settings, [], [], []⟩

instance : Inhabited World := ⟨empty .default⟩

/-- Adds an object and gives its number. -/
def allocate (w : World) (x : HeapObject) : ObjectId × World :=
  let (o, heap) := w.heap.allocate x
  (o, { w with heap })

/-- The instance of a string literal, made when first asked for. -/
def literal (w : World) (text : String) : ObjectId × World :=
  match w.literals.lookup text with
  | some o => (o, w)
  | none =>
    let (o, w) := w.allocate (.ofText text)
    (o, { w with literals := (text, o) :: w.literals })

/-- The signature of a call record. -/
def signatureOf (w : World) (id : Nat) : String :=
  match w.store.record? id with
  | some r => r.signature
  | none => ""

def render (w : World) (t : Ty) (v : Value) : String := w.heap.render w.signatureOf t v

def display (w : World) (v : Value) : String := w.heap.display w.signatureOf v

/-! ## 1. Life and death -/

/-- The values that keep objects alive, besides the given ones. -/
def anchors (w : World) : List Value := w.held ++ w.literals.map fun e => .ref e.2

/-- Which objects are alive while the given values are in use. -/
def alive (w : World) (inUse : Thunk (List Value)) : ObjectId → Bool :=
  w.heap.alive (.mk fun _ => inUse.get ++ w.anchors)

/-- All values that are held or lie in an object that is alive. -/
def livingValues (w : World) : List Value :=
  let alive := w.alive (.pure [])
  w.anchors ++
    (w.heap.objects.ids.filter alive).flatMap fun o => (w.heap.object o).contents

/-- The trackers that call records mention. -/
def recordTrackers (w : World) (id : Nat) : List TrackerId :=
  match w.store.record? id with
  | some r => (r.returned.toList ++ r.args.filterMap fun p => p).map Point.tracker
  | none => []

/-- The trackers that a value mentions. -/
def trackersOf (w : World) : Value → List TrackerId
  | .point p => [p.tracker]
  | .record id => w.recordTrackers id
  | _ => []

/-- The trackers that are in use, besides the given ones: those of objects, fields and tables and
those that values and the waiting call record mention. -/
def usedTrackers (w : World) : List TrackerId :=
  w.store.objects.entries.map Prod.snd ++
    (w.store.fields.entries.flatMap fun e => e.2.map fun p => p.2.tracker) ++
    w.store.tables.map ConstantTable.tracker ++
    w.store.pending.toList.flatMap w.recordTrackers ++
    w.livingValues.flatMap w.trackersOf

/-- Notes what is held outside, and drops the trackers that are no longer in use. -/
def hold (w : World) (values : List Value) (trackers : List TrackerId) : World :=
  let w := { w with held := values }
  { w with store.ledger := w.store.ledger.retain (trackers ++ w.usedTrackers) }

end World

end Provenance
