/-
# Values at run time and the objects they refer to

Ints stand for all narrow types; a value is narrowed when it is stored where a narrow type is
declared.  Points and call records are values only woven code has on its stack.
-/
import Provenance.Code.Ty
import Provenance.Number.Binary
import Provenance.Store.Tracker
import Provenance.Store.WeakMap

namespace Provenance

inductive Value where
  | int (v : Int32)
  | long (v : Int64)
  | float (v : Single)
  | double (v : Double)
  | null
  /-- An object, by number. -/
  | ref (o : ObjectId)
  | point (p : Point)
  /-- A call record, by number. -/
  | record (id : Nat)
  deriving DecidableEq, Repr, Inhabited

/-- Truncates a number to a narrow type; other types keep it. -/
def narrowInt (v : Int32) : Ty → Int32
  | .byte => v.toInt8.toInt32
  | .char => v &&& 0xFFFF
  | .short => v.toInt16.toInt32
  | .boolean => v &&& 1
  | _ => v

namespace Value

/-- What a place of that type holds before anything is stored there. -/
def defaultFor : Ty → Value
  | .long => .long 0
  | .float => .float ⟨0⟩
  | .double => .double ⟨0⟩
  | .object _ | .array _ | .void => .null
  | _ => .int 0

/-- The value as a place of that type holds it. -/
def narrowed (t : Ty) : Value → Value
  | .int v => .int (narrowInt v t)
  | v => v

def isNull : Value → Bool
  | .null => true
  | _ => false

def ofBool (b : Bool) : Value := .int (if b then 1 else 0)

def ofPoint : Option Point → Value
  | some p => .point p
  | none => .null

def ofRecord : Option Nat → Value
  | some id => .record id
  | none => .null

/-- The object that a value refers to. -/
def object? : Value → Option ObjectId
  | .ref o => some o
  | _ => none

end Value

/-- What lives on the heap. -/
inductive HeapObject where
  | array (elem : Ty) (values : Array Value)
  | string (chars : Array Char)
  /-- An instance of a class; a field that was never stored is missing. -/
  | instance (className : String) (fields : List (String × Value))
  deriving Repr, Inhabited

namespace HeapObject

def kind : HeapObject → String
  | array _ _ => "array"
  | string _ => "string"
  | «instance» _ _ => "instance"

/-- An array whose elements were never stored. -/
def newArray (elem : Ty) (length : Nat) : HeapObject :=
  .array elem (Array.replicate length (Value.defaultFor elem))

/-- A char array holding the characters of a text. -/
def charArray (text : String) : HeapObject :=
  .array .char (text.toList.map fun c => Value.int (.ofNat c.toNat)).toArray

def ofText (text : String) : HeapObject := .string text.toList.toArray

/-- The character of a code; what is none reads as the replacement character. -/
def charOfCode (v : Int32) : Char :=
  let n := v.toUInt32.toNat
  if n.isValidChar then Char.ofNat n else '\uFFFD'

/-- The character that an element of a char array stands for. -/
def charOfValue : Value → Char
  | .int v => charOfCode v
  | _ => '\uFFFD'

/-- The text of a string, or of a char array read as text. -/
def text? : HeapObject → Option String
  | string chars => some (String.ofList chars.toList)
  | array .char values => some (String.ofList (values.toList.map charOfValue))
  | _ => none

/-- The values that an object holds. -/
def contents : HeapObject → List Value
  | array _ values => values.toList
  | string _ => []
  | «instance» _ fields => fields.map Prod.snd

/-- The objects that an object refers to, as often as it does. -/
def references (x : HeapObject) : List ObjectId := x.contents.filterMap Value.object?

end HeapObject

end Provenance
