/-
# Hooks

What woven code does to the provenance store.  A hook fails only where the program itself would:
if the store refuses something, the point in question is unknown from then on.

A hook computes with indices as numbers; `hookIn` is the same hook on a machine whose indices are
words, where a sum may leave the words.

`inUse` are the values the running methods have in their locals and on their stacks; they keep
objects alive while dead entries are dropped.
-/
import Provenance.Machine.Bench
import Provenance.Store.Fields
import Provenance.Store.Words

namespace Provenance

namespace Work

/-- How a hook fails for want of operands. -/
def hookUnderflow : RunError := .stackUnderflow "hook" 0

def take : Work Value := pop hookUnderflow

/-- Takes a call record or null. -/
def takeRecord : Work (Option Nat) := do
  let v ← take
  fromHeap fun h => h.record v

/-- An operation of the store that may drop the entries of dead objects. -/
def tracking {α : Type} (inUse : Thunk (List Value)) (f : (ObjectId → Bool) → Store → α × Store) :
    Work α := .update fun b =>
  let alive := b.world.alive inUse
  let (a, store) := f alive b.world.store
  (a, { b with world.store := store })

/-- Where the value at an index of an object came from. -/
def pointAt (inUse : Thunk (List Value)) (o : ObjectId) (index : Nat) : Work (Option Point) :=
  tracking inUse fun alive s => s.pointAt alive o index

def trackerOf (inUse : Thunk (List Value)) (o : ObjectId) : Work (Option TrackerId) :=
  tracking inUse fun alive s => s.trackerOf alive o

/-- Records where a range of an object came from; gives whether the store took it. -/
def setSource (inUse : Thunk (List Value)) (o : ObjectId) (index length : Nat)
    (source : Option TrackerId) (sourceIndex : Nat) : Work Bool :=
  tracking inUse fun alive s =>
    let (result, s) := s.setSource alive o index length source sourceIndex
    (result.toBool, s)

/-- A way of recording where a range of an object came from. -/
abbrev Recorder : Type :=
  Thunk (List Value) → ObjectId → Nat → Nat → Option TrackerId → Nat → Work Bool

/-- The value in use besides others. -/
def alsoInUse (o : ObjectId) (inUse : Thunk (List Value)) : Thunk (List Value) :=
  .mk fun _ => .ref o :: inUse.get

/-! ## 1. Elements -/

/-- Where an element came from; a negative index is nowhere. -/
def elementPointBy (pointAt : ObjectId → Nat → Work (Option Point)) (v : Value) (index : Int32) :
    Work (Option Point) := do
  match ← fromHeap fun h => h.reference v with
  | none => return none
  | some o => if index < 0 then return none else pointAt o index.toInt.toNat

abbrev elementPoint (inUse : Thunk (List Value)) : Value → Int32 → Work (Option Point) :=
  elementPointBy (pointAt inUse)

/-- Stores an element together with its point. -/
def storeWithPointBy (record : Recorder) (inUse : Thunk (List Value)) : Work Unit := do
  let point ← take
  let value ← take
  let index ← popInt hookUnderflow
  let array ← popTarget hookUnderflow "array store"
  storeElement array index value
  let point ← fromHeap fun h => h.point point
  let source := point.map Point.tracker
  let sourceIndex := (point.map Point.index).getD 0
  let _ ← record inUse array index.toInt.toNat 1 source sourceIndex

abbrev storeWithPoint : Thunk (List Value) → Work Unit := storeWithPointBy setSource

/-- The bulk copy of arrays; the range copied takes over the provenance of its source. -/
def copyArrayBy (record : Recorder) (inUse : Thunk (List Value)) : List Value → Work Unit
  | [source, position, target, targetPosition, length] => do
    let source ← fromHeap fun h => h.target "arraycopy source" source
    let target ← fromHeap fun h => h.target "arraycopy target" target
    let position ← fromHeap fun h => h.int position
    let targetPosition ← fromHeap fun h => h.int targetPosition
    let length ← fromHeap fun h => h.int length
    changeHeap fun h => h.copyRange source position target targetPosition length
    let tracker ← trackerOf inUse source
    let _ ← record inUse target targetPosition.toInt.toNat length.toInt.toNat tracker
      position.toInt.toNat
  | _ => throw hookUnderflow

abbrev copyArray : Thunk (List Value) → List Value → Work Unit := copyArrayBy setSource

/-- A copy of an array, with the provenance of every element. -/
def cloneArrayBy (record : Recorder) (inUse : Thunk (List Value)) (v : Value) : Work Value := do
  let array ← fromHeap fun h => h.target "clone" v
  let copy ← allocate (← fromHeap fun h => h.duplicate array)
  let inUse := alsoInUse copy inUse
  match ← trackerOf inUse array with
  | none => return .ref copy
  | some tracker =>
    let length ← fromHeap fun h => h.length copy
    let _ ← record inUse copy 0 length (some tracker) 0
    return .ref copy

abbrev cloneArray : Thunk (List Value) → Value → Work Value := cloneArrayBy setSource

/-! ## 2. Strings -/

/-- Records, character by character, where in a table the UTF-8 text at an offset stands; stops
when the store refuses. -/
def characterSourcesBy (record : Recorder) (inUse : Thunk (List Value)) (o : ObjectId)
    (table : TrackerId) : Nat → List Nat → Work Unit
  | _, [] => return ()
  | index, offset :: rest => do
    if ← record inUse o index 1 (some table) offset then
      characterSourcesBy record inUse o table (index + 1) rest

abbrev characterSources : Thunk (List Value) → ObjectId → TrackerId → Nat → List Nat → Work Unit :=
  characterSourcesBy setSource

/-- Points every character of a literal's copy at its place in the table. -/
def literalSourceBy (record : Recorder) (inUse : Thunk (List Value)) (o : ObjectId)
    (text : List Char) (table : TrackerId) (offset : Nat) : Work Unit := do
  if Utf8.isAscii text then
    let _ ← record inUse o 0 text.length (some table) offset
  else characterSourcesBy record inUse o table 0 (Utf8.offsets offset text)

abbrev literalSource : Thunk (List Value) → ObjectId → List Char → TrackerId → Nat → Work Unit :=
  literalSourceBy setSource

/-- A copy of a string literal that points at the literal's place in its table. -/
def copyLiteralBy (record : Recorder) (inUse : Thunk (List Value)) (classId offset : Nat)
    (o : ObjectId) : Work Value := do
  let text ← fromHeap fun h => .ok ((h.text? o).getD "")
  let copy ← allocate (.ofText text)
  match ← onStore fun s => (s.table classId, s) with
  | .error _ => return .ref copy
  | .ok table =>
    literalSourceBy record (alsoInUse copy inUse) copy text.toList table.tracker offset
    return .ref copy

abbrev copyLiteral : Thunk (List Value) → Nat → Nat → ObjectId → Work Value :=
  copyLiteralBy setSource

/-- Where a range of a text came from. -/
structure TextSource where
  start : Nat
  length : Nat
  source : TrackerId
  sourceIndex : Nat
  deriving DecidableEq, Repr

/-- The text of masked operands and the sources of its ranges, after a text of the given length.
A marked operand came from the next of the points, any other from its own tracker. -/
def joinTracked (inUse : Thunk (List Value)) :
    Nat → List (Ty × Value) → List Char → List Value → Work (List Char × List TextSource)
  | start, (t, v) :: operands, mark :: marks, points => do
    let world ← Action.inspect fun b => .ok b.world
    let text := (world.render t v).toList
    let (source, points) ←
      if mark = 'T' then
        match points with
        | [] => pure (none, [])
        | p :: points =>
          let point ← fromHeap fun h => h.point p
          pure (point.map fun p => ⟨start, text.length, p.tracker, p.index⟩, points)
      else
        match v.object? with
        | none => pure (none, points)
        | some o =>
          let tracker ← trackerOf inUse o
          pure (tracker.map fun id => ⟨start, text.length, id, 0⟩, points)
    let (rest, sources) ← joinTracked inUse (start + text.length) operands marks points
    return (text ++ rest, source.toList ++ sources)
  | _, _, _, _ => return ([], [])

/-- Records the sources of the ranges of a string. -/
def recordSourcesBy (record : Recorder) (inUse : Thunk (List Value)) (o : ObjectId) :
    List TextSource → Work Unit
  | [] => return ()
  | s :: rest => do
    let _ ← record inUse o s.start s.length (some s.source) s.sourceIndex
    recordSourcesBy record inUse o rest

abbrev recordSources : Thunk (List Value) → ObjectId → List TextSource → Work Unit :=
  recordSourcesBy setSource

/-- A concatenation that records where each of its characters came from. -/
def concatenateBy (record : Recorder) (inUse : Thunk (List Value)) (args : List Ty) (mask : String)
    (values points : List Value) : Work Value := do
  let (text, sources) ← joinTracked inUse 0 (args.zip values) mask.toList points
  let o ← allocate (.string text.toArray)
  recordSourcesBy record (alsoInUse o inUse) o sources
  return .ref o

abbrev concatenate : Thunk (List Value) → List Ty → String → List Value → List Value → Work Value :=
  concatenateBy setSource

/-! ## 3. All hooks -/

/-- Runs a hook. -/
def hook (inUse : Thunk (List Value)) : Hook → Work Unit
  | .constantPoint c => do
    let point ← onStore fun s =>
      (if s.isActive then (s.constantPoint c.classId c.offset c.length).toOption else none, s)
    push (.ofPoint point)
  | .elementPoint => do
    let index ← popInt hookUnderflow
    let object ← take
    push (.ofPoint (← elementPoint inUse object index))
  | .arrayStoreWithPoint _ => storeWithPoint inUse
  | .fieldPoint key => do
    let v ← take
    match ← fromHeap fun h => h.reference v with
    | none => push .null
    | some o => push (.ofPoint (← onStore fun s => (s.fieldPoint o key, s)))
  | .setFieldPoint key => do
    let point ← take
    let v ← take
    match ← fromHeap fun h => h.reference v with
    | none => return ()
    | some o =>
      let point ← fromHeap fun h => h.point point
      onStore fun s => ((), s.setFieldPoint o key point)
  | .invocationCreate signature => do
    let created ← onStore fun s =>
      if s.isActive then
        let (id, s) := s.createRecord signature
        (some id, s)
      else (none, s)
    push (.ofRecord created)
  | .invocationSetArg slot => do
    let point ← take
    let v ← take
    match ← fromHeap fun h => h.record v with
    | none => push v
    | some id =>
      let point ← fromHeap fun h => h.point point
      onStore fun s => ((), match s.setArg id slot point with
        | .ok s => s
        | .error _ => s)
      push v
  | .invocationCalling => do
    let v ← take
    match ← fromHeap fun h => h.record v with
    | none => push v
    | some id =>
      onStore fun s => ((), s.handOver id)
      push v
  | .invocationStart signature => do
    push (.ofRecord (← onStore fun s => s.claim signature))
  | .invocationArgPoint slot => do
    match ← takeRecord with
    | none => push .null
    | some id => push (.ofPoint (← onStore fun s => (s.argPoint id slot, s)))
  | .invocationReturnPoint => do
    match ← takeRecord with
    | none => push .null
    | some id => push (.ofPoint (← onStore fun s => (s.returnedPoint id, s)))
  | .invocationReturning => do
    let point ← take
    match ← takeRecord with
    | none => return ()
    | some id =>
      let point ← fromHeap fun h => h.point point
      onStore fun s => ((), s.setReturned id point)
  | .stringEquals => do
    let b ← take
    let a ← take
    push (.ofBool (← fromHeap fun h => h.stringEquals a b))
  | .concatWithPoints args mask => do
    let points ← popMany hookUnderflow (markedCount mask)
    let values ← popMany hookUnderflow args.length
    push (← concatenate inUse args mask values points)
  | .constantString classId offset => do
    let v ← take
    match ← fromHeap fun h => h.reference v with
    | none => push .null
    | some o => push (← copyLiteral inUse classId offset o)
  | .arrayCopy => do copyArray inUse (← popMany hookUnderflow 5)
  | .arrayClone => do push (← cloneArray inUse (← take))

/-! ## 4. Hooks in words -/

/-- An operation of the store that stops the program if there is no result. -/
def trackingIn {α : Type} (inUse : Thunk (List Value))
    (f : (ObjectId → Bool) → Store → Option (α × Store)) : Work α := fun b =>
  match f (b.world.alive inUse) b.world.store with
  | none => (.error .overflow, b)
  | some (a, store) => (.ok a, { b with world.store := store })

/-- Records where a range of an object came from; the index in the source, which may be a sum, is
taken as a word first. -/
def setSourceIn (w : Overflow) : Recorder := fun inUse o index length source sourceIndex =>
  trackingIn inUse fun alive s => (w.word sourceIndex).bind fun sourceIndex =>
    (s.setSourceIn w alive o index length source sourceIndex).map fun r => (r.1.toBool, r.2)

/-- Where the value at an index of an object came from. -/
def pointAtIn (w : Overflow) (inUse : Thunk (List Value)) (o : ObjectId) (index : Nat) :
    Work (Option Point) :=
  trackingIn inUse fun alive s => s.pointAtIn w alive o index

/-- The point of a literal, if tracking is on and the table has that range. -/
def constantPointIn (w : Overflow) (c : ClassConstant) : Work (Option Point) :=
  trackingIn (.pure []) fun _ s =>
    if s.isActive then
      (s.constantPointIn w c.classId c.offset c.length).map fun r => (r.toOption, s)
    else some (none, s)

/-- Runs a hook on a machine whose indices are words. -/
def hookIn (w : Overflow) (inUse : Thunk (List Value)) : Hook → Work Unit
  | .constantPoint c => do push (.ofPoint (← constantPointIn w c))
  | .elementPoint => do
    let index ← popInt hookUnderflow
    let object ← take
    push (.ofPoint (← elementPointBy (pointAtIn w inUse) object index))
  | .arrayStoreWithPoint _ => storeWithPointBy (setSourceIn w) inUse
  | .concatWithPoints args mask => do
    let points ← popMany hookUnderflow (markedCount mask)
    let values ← popMany hookUnderflow args.length
    push (← concatenateBy (setSourceIn w) inUse args mask values points)
  | .constantString classId offset => do
    let v ← take
    match ← fromHeap fun h => h.reference v with
    | none => push .null
    | some o => push (← copyLiteralBy (setSourceIn w) inUse classId offset o)
  | .arrayCopy => do copyArrayBy (setSourceIn w) inUse (← popMany hookUnderflow 5)
  | .arrayClone => do push (← cloneArrayBy (setSourceIn w) inUse (← take))
  | h => hook inUse h

end Work

end Provenance
