/-
# The heap

Objects are numbered as they are made.  The sections read values for what an instruction expects,
read and write objects, and turn values into text.

An operation that may fail gives the new heap only if it succeeds, so a failed one changes
nothing.
-/
import Provenance.Machine.Error
import Provenance.Machine.Value
import Provenance.Number.Numeral
import Provenance.Number.Shortest
import Provenance.Text.Quoted

namespace Provenance

structure Heap where
  objects : Table HeapObject
  deriving Repr

namespace Heap

def empty : Heap := ⟨.empty⟩

instance : Inhabited Heap := ⟨empty⟩

/-- An object; every number that was not given out stands for an instance of no class. -/
def object (h : Heap) (o : ObjectId) : HeapObject := (h.objects.get? o).getD (.instance "" [])

/-- Adds an object and gives its number. -/
def allocate (h : Heap) (x : HeapObject) : ObjectId × Heap :=
  (h.objects.nextId, ⟨h.objects.add x⟩)

def modify (h : Heap) (o : ObjectId) (f : HeapObject → HeapObject) : Heap := ⟨h.objects.modify o f⟩

/-! ## 1. What a value is -/

/-- What error texts call a value. -/
def describe (h : Heap) : Value → String
  | .int _ => "int"
  | .long _ => "long"
  | .float _ => "float"
  | .double _ => "double"
  | .null => "null"
  | .ref o => (h.object o).kind
  | .point _ => "point"
  | .record _ => "invocation"

/-- A value is not what was expected. -/
def mismatch {α : Type} (h : Heap) (expected : String) (v : Value) : Except RunError α :=
  .error (.typeMismatch expected (h.describe v))

def int (h : Heap) : Value → Except RunError Int32
  | .int n => .ok n
  | v => h.mismatch "int" v

def long (h : Heap) : Value → Except RunError Int64
  | .long n => .ok n
  | v => h.mismatch "long" v

def float (h : Heap) : Value → Except RunError Single
  | .float x => .ok x
  | v => h.mismatch "float" v

def double (h : Heap) : Value → Except RunError Double
  | .double x => .ok x
  | v => h.mismatch "double" v

/-- The object a value refers to, or nothing for null. -/
def reference (h : Heap) : Value → Except RunError (Option ObjectId)
  | .ref o => .ok (some o)
  | .null => .ok none
  | v => h.mismatch "reference" v

/-- The object a value refers to; the context is named if there is none. -/
def target (h : Heap) (context : String) (v : Value) : Except RunError ObjectId :=
  match h.reference v with
  | .error e => .error e
  | .ok (some o) => .ok o
  | .ok none => .error (.nullReference context)

def point (h : Heap) : Value → Except RunError (Option Point)
  | .point p => .ok (some p)
  | .null => .ok none
  | v => h.mismatch "point" v

def record (h : Heap) : Value → Except RunError (Option Nat)
  | .record id => .ok (some id)
  | .null => .ok none
  | v => h.mismatch "invocation" v

/-- Whether two references are the same; null is the same as null. -/
def sameReference (h : Heap) (a b : Value) : Except RunError Bool :=
  match h.reference a with
  | .error e => .error e
  | .ok x =>
    match h.reference b with
    | .error e => .error e
    | .ok y => .ok (x == y)

/-- Whether two objects are equal: strings by their characters, all others by identity. -/
def equalObjects (h : Heap) (a b : ObjectId) : Bool :=
  match h.object a, h.object b with
  | .string left, .string right => left == right
  | _, _ => a == b

/-- Whether two references are equal in the sense of strings. -/
def stringEquals (h : Heap) (a b : Value) : Except RunError Bool :=
  match h.reference a with
  | .error e => .error e
  | .ok x =>
    match h.reference b with
    | .error e => .error e
    | .ok y =>
      .ok (match x, y with
        | some x, some y => h.equalObjects x y
        | none, none => true
        | _, _ => false)

/-! ## 2. Arrays -/

/-- An object is not of the kind that was expected. -/
def wrongKind {α : Type} (expected : String) (x : HeapObject) : Except RunError α :=
  .error (.typeMismatch expected x.kind)

/-- The length of an array or a string. -/
def length (h : Heap) (o : ObjectId) : Except RunError Nat :=
  match h.object o with
  | .array _ values => .ok values.size
  | .string chars => .ok chars.size
  | x => wrongKind "array" x

/-- A length as an int, which is cut off at the largest one. -/
def lengthAsInt (n : Nat) : Int32 := if n < Numeral.intBound then .ofNat n else 2147483647

/-- An index as a place among that many. -/
def place (index : Int32) (length : Nat) : Except RunError Nat :=
  if 0 ≤ index.toInt ∧ index.toInt < length then .ok index.toInt.toNat
  else .error (.indexOutOfBounds index.toInt length)

/-- The first place of a range that lies within a size. -/
def rangeStart (start length : Int32) (size : Nat) : Except RunError Nat :=
  if 0 ≤ start.toInt ∧ 0 ≤ length.toInt ∧ start.toInt + length.toInt ≤ size then
    .ok start.toInt.toNat
  else .error (.indexOutOfBounds (start.toInt + length.toInt) size)

def load (h : Heap) (o : ObjectId) (index : Int32) : Except RunError Value :=
  match h.object o with
  | .array _ values =>
    match place index values.size with
    | .error e => .error e
    | .ok i => .ok (values.getD i .null)
  | x => wrongKind "array" x

/-- The place in an array that an index names, for writing. -/
def elementPlace (h : Heap) (o : ObjectId) (index : Int32) : Except RunError Nat :=
  match h.object o with
  | .array _ values => place index values.size
  | x => wrongKind "array" x

/-- Puts a value at a place in an array, narrowed to the type of its elements. -/
def putElement (h : Heap) (o : ObjectId) (i : Nat) (v : Value) : Heap :=
  h.modify o fun
    | .array elem values => .array elem (values.setIfInBounds i (v.narrowed elem))
    | x => x

def store (h : Heap) (o : ObjectId) (index : Int32) (v : Value) : Except RunError Heap :=
  match h.elementPlace o index with
  | .error e => .error e
  | .ok i => .ok (h.putElement o i v)

/-- An array with values put in from a place on. -/
def overwrite (values : Array Value) (start : Nat) : List Value → Array Value
  | [] => values
  | v :: vs => overwrite (values.setIfInBounds start v) (start + 1) vs

/-- Copies a range of an array to another one or to itself, as if by way of a copy.  The elements
must have the same type. -/
def copyRange (h : Heap) (source : ObjectId) (position : Int32) (target : ObjectId)
    (targetPosition length : Int32) : Except RunError Heap :=
  match h.object source, h.object target with
  | .array elem values, .array targetElem targetValues =>
    if elem = targetElem then
      match rangeStart position length values.size with
      | .error e => .error e
      | .ok start =>
        match rangeStart targetPosition length targetValues.size with
        | .error e => .error e
        | .ok targetStart =>
          let copied := (values.extract start (start + length.toInt.toNat)).toList
          .ok
          (h.modify target fun _ => .array targetElem (overwrite targetValues targetStart copied))
    else
      .error (.typeMismatch "arrays of one element type"
        (elem.display ++ "[] and " ++ targetElem.display ++ "[]"))
  | .array _ _, x => wrongKind "array" x
  | x, _ => wrongKind "array" x

/-- A new array with the same elements. -/
def duplicate (h : Heap) (o : ObjectId) : Except RunError HeapObject :=
  match h.object o with
  | .array elem values => .ok (.array elem values)
  | x => wrongKind "array" x

/-! ## 3. Fields and characters -/

/-- The value of a field; of the given type if nothing was stored there. -/
def getField (h : Heap) (o : ObjectId) (name : String) (t : Ty) : Except RunError Value :=
  match h.object o with
  | .instance _ fields => .ok ((fields.lookup name).getD (Value.defaultFor t))
  | x => wrongKind "instance" x

/-- The fields with one of them set. -/
def setField (name : String) (v : Value) : List (String × Value) → List (String × Value)
  | [] => [(name, v)]
  | (k, w) :: rest => if k = name then (name, v) :: rest else (k, w) :: setField name v rest

/-- Puts a value into a field, narrowed to its type. -/
def putField (h : Heap) (o : ObjectId) (name : String) (t : Ty) (v : Value) :
    Except RunError Heap :=
  match h.object o with
  | .instance className fields =>
    .ok (h.modify o fun _ => .instance className (setField name (v.narrowed t) fields))
  | x => wrongKind "instance" x

/-- The character of a string at an index. -/
def charAt (h : Heap) (o : ObjectId) (index : Int32) : Except RunError Char :=
  match h.object o with
  | .string chars =>
    match place index chars.size with
    | .error e => .error e
    | .ok i => .ok (chars.getD i '\x00')
  | x => wrongKind "string" x

/-! ## 4. Text -/

/-- The text of a string, or of a char array read as text. -/
def text? (h : Heap) (o : ObjectId) : Option String := (h.object o).text?

/-- An object as texts name it that do not show its contents; of a string the quoted text. -/
def name (h : Heap) (o : ObjectId) : String :=
  match h.object o with
  | .array elem values => elem.display ++ "[" ++ toString values.size ++ "]"
  | .string chars => Text.quote (String.ofList chars.toList)
  | .instance className _ => className ++ "@" ++ toString o

/-- A value of a static type as a concatenation shows it; a record is shown by its signature. -/
def render (h : Heap) (signatureOf : Nat → String) (t : Ty) : Value → String
  | .int v =>
    match t with
    | .char => String.singleton (HeapObject.charOfCode v)
    | .boolean => if v = 0 then "false" else "true"
    | _ => toString v.toInt
  | .long v => toString v.toInt
  | .float x => x.display
  | .double x => x.display
  | .null => "null"
  | .ref o => (h.text? o).getD (h.name o)
  | .point p =>
    "TrackerPoint(" ++ trackerName p.tracker ++ ", " ++ toString p.index ++ ", " ++
      toString p.length ++ ")"
  | .record id => signatureOf id

/-- A value as a result is shown: a string in quotes, any other object by its name. -/
def display (h : Heap) (signatureOf : Nat → String) : Value → String
  | .ref o => h.name o
  | v => h.render signatureOf .int v

end Heap

end Provenance
