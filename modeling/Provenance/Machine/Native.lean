/-
# Natives

A native stands in for library code that is never woven, typically where data comes from or goes
to.  It sees the call record that its caller handed over, so it can read the points of its
arguments and set the point of its result.  The built-in natives are the helpers for strings,
bytes and arrays that code relies on; a scripted native does what its script says and writes the
call into the journal.
-/
import Provenance.Machine.World

namespace Provenance

/-- A call of a native; the receiver, if any, is the first argument. -/
structure NativeCall where
  /-- Owner, name and descriptor. -/
  key : String
  args : List Value
  record : Option Nat
  deriving Repr

/-- What a native does: a result or nothing, and changes to the world. -/
abbrev NativeBody : Type := NativeCall → Action World (Option Value)

structure Native where
  body : NativeBody
  /-- Values that the native holds on to. -/
  held : List Value

/-- A method's owner, name and descriptor in one text. -/
def methodKey (owner name descriptor : String) : String := owner ++ "." ++ name ++ descriptor

namespace NativeCall

def arg (c : NativeCall) (index : Nat) : Action World Value := .inspect fun _ =>
  match c.args[index]? with
  | some v => .ok v
  | none => .error (.native c.key ("missing argument " ++ toString index))

/-- An argument that must be an object. -/
def target (c : NativeCall) (index : Nat) : Action World ObjectId := do
  let v ← c.arg index
  .inspect fun w => w.heap.target c.key v

def int (c : NativeCall) (index : Nat) : Action World Int32 := do
  let v ← c.arg index
  .inspect fun w => w.heap.int v

/-- The point the caller recorded for a parameter; the receiver is not counted. -/
def argPoint (c : NativeCall) (s : Store) (slot : Nat) : Option Point :=
  c.record.bind fun id => s.argPoint id slot

/-- Tells the caller where the result came from. -/
def returning (c : NativeCall) (point : Option Point) : Action World Unit := .update fun w =>
  match c.record with
  | none => ((), w)
  | some id => ((), { w with store := w.store.setReturned id point })

end NativeCall

namespace Native

/-! ## 1. Built-in natives -/

def charAt : NativeBody := fun c => do
  let index ← c.int 1
  let o ← c.target 0
  let char ← Action.inspect fun w => w.heap.charAt o index
  return some (.int (.ofNat char.toNat))

def length : NativeBody := fun c => do
  let o ← c.target 0
  let n ← Action.inspect fun w => w.heap.length o
  return some (.int (Heap.lengthAsInt n))

def equals : NativeBody := fun c => do
  let a ← c.arg 0
  let b ← c.arg 1
  let same ← Action.inspect fun w => w.heap.stringEquals a b
  return some (.ofBool same)

def toUnsignedInt : NativeBody := fun c => do
  let n ← c.int 0
  return some (.int (n &&& 0xFF))

def arrayCopy : NativeBody := fun c => do
  let source ← c.target 0
  let target ← c.target 2
  let position ← c.int 1
  let targetPosition ← c.int 3
  let length ← c.int 4
  let heap ← Action.inspect fun w => w.heap.copyRange source position target targetPosition length
  Action.update fun w => ((), { w with heap })
  return none

def clone : NativeBody := fun c => do
  let o ← c.target 0
  let copy ← Action.inspect fun w => w.heap.duplicate o
  let copy ← Action.update fun w => w.allocate copy
  return some (.ref copy)

/-- The built-in natives by key. -/
def builtIn : List (String × Native) :=
  [(methodKey "java/lang/String" "charAt" "(I)C", ⟨charAt, []⟩),
    (methodKey "java/lang/String" "length" "()I", ⟨length, []⟩),
    (methodKey "java/lang/String" "equals" "(Ljava/lang/Object;)Z", ⟨equals, []⟩),
    (methodKey "java/lang/Byte" "toUnsignedInt" "(B)I", ⟨toUnsignedInt, []⟩),
    (methodKey "java/lang/System" "arraycopy" "(Ljava/lang/Object;ILjava/lang/Object;II)V",
      ⟨arrayCopy, []⟩),
    (methodKey "[B" "clone" "()Ljava/lang/Object;", ⟨clone, []⟩),
    (methodKey "[C" "clone" "()Ljava/lang/Object;", ⟨clone, []⟩),
    (methodKey "[I" "clone" "()Ljava/lang/Object;", ⟨clone, []⟩)]

/-! ## 2. Scripted natives -/

/-- What a scripted native returns. -/
inductive ScriptedResult where
  | nothing
  | value (v : Value)
  /-- The argument of that number. -/
  | argument (index : Nat)
  deriving DecidableEq, Repr

/-- What a scripted native does after noting the call. -/
structure Script where
  /-- Fails at once, for this reason. -/
  failure : Option String
  /-- The point to set for the result, if any is to be set. -/
  publish : Option (Option Point)
  /-- The slot whose point becomes that of the result. -/
  forwardSlot : Option Nat
  result : ScriptedResult
  deriving Repr

/-- Writes a call into the journal. -/
def note (c : NativeCall) : Action World Unit := .update fun w =>
  let points := (List.range 7).map (c.argPoint w.store)
  let entry : CallNote := ⟨c.key, c.args, points, c.record.isSome⟩
  ((), { w with journal := entry :: w.journal })

def scriptedBody (s : Script) : NativeBody := fun c => do
  note c
  match s.failure with
  | some reason => throw (.native c.key reason)
  | none =>
    match s.publish with
    | some point => c.returning point
    | none => pure ()
    match s.forwardSlot with
    | some slot =>
      let point ← Action.inspect fun w => .ok (c.argPoint w.store slot)
      c.returning point
    | none => pure ()
    match s.result with
    | .nothing => return none
    | .value v => return some v
    | .argument index => return some (← c.arg index)

/-- The values that a script mentions. -/
def Script.values (s : Script) : List Value :=
  let result := match s.result with
    | .value v => [v]
    | _ => []
  result ++ (s.publish.join.map Value.point).toList

/-- The native of a script. -/
def scripted (s : Script) : Native := ⟨scriptedBody s, s.values⟩

end Native

end Provenance
