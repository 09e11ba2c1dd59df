/-
# Reading values out of JSON

A record is an object or the list of its fields in order.  Of an object, fields that the record
does not have are passed over, and a field that stands there twice makes it no record.  A variant
is its tag as a text, or an object whose only field is the tag.
-/
import Provenance.Json.Basic

namespace Provenance.Json

def asText? : Json → Option String
  | .text s => some s
  | _ => none

def asBool? : Json → Option Bool
  | .bool b => some b
  | _ => none

def asNull? : Json → Option Unit
  | .null => some ()
  | _ => none

/-- A whole number below the bound. -/
def asNat? (bound : Nat) : Json → Option Nat
  | .number (.natural n) => if n < bound then some n else none
  | _ => none

/-- A whole number from `-bound` to below `bound`. -/
def asInt? (bound : Nat) : Json → Option Int
  | .number (.natural n) => if n < bound then some n else none
  | .number (.negative n) => if n ≤ bound then some (-(n : Int)) else none
  | _ => none

/-- Any number, with 64 bits. -/
def asDouble? : Json → Option Double
  | .number (.natural n) => some (.ofFloat (UInt64.ofNat n).toFloat)
  | .number (.negative n) => some (.ofFloat (Int64.ofInt (-(n : Int))).toFloat)
  | .number (.double x) => some x
  | .number (.single x) => some x.widen
  | _ => none

/-- Any number, with 32 bits. -/
def asSingle? : Json → Option Single
  | .number (.natural n) => some ⟨(UInt64.ofNat n).toFloat32.toBits⟩
  | .number (.negative n) => some ⟨(Int64.ofInt (-(n : Int))).toFloat32.toBits⟩
  | .number (.double x) => some x.narrow
  | .number (.single x) => some x
  | _ => none

/-- A list of things that `f` reads. -/
def asList? {α : Type} (f : Json → Option α) : Json → Option (List α)
  | .list items => items.mapM f
  | _ => none

/-- The values of all fields with the given name. -/
def valuesOf (name : String) (fields : List (String × Json)) : List Json :=
  fields.filterMap fun (k, j) => if k = name then some j else none

/-- The value of the field with the given name, `none` inside if it is missing; refused if it
stands there twice. -/
def once? (fields : List (String × Json)) (name : String) : Option (Option Json) :=
  match valuesOf name fields with
  | [] => some none
  | [j] => some (some j)
  | _ => none

/-- The values of the named fields of a record, in the order of the names. -/
def record? (names : List String) : Json → Option (List (Option Json))
  | .object fields => names.mapM (once? fields)
  | .list items =>
    if items.length ≤ names.length then
      some (items.map some ++ List.replicate (names.length - items.length) none)
    else none
  | _ => none

/-- The tag of a variant and what it carries, if anything. -/
def variant? : Json → Option (String × Option Json)
  | .text tag => some (tag, none)
  | .object [(tag, payload)] => some (tag, some payload)
  | _ => none

/-- A variant that carries nothing may still spell that out. -/
def bare? : Option Json → Option Unit
  | none => some ()
  | some j => asNull? j

/-- The last value of a field of an object. -/
def field? (name : String) : Json → Option Json
  | .object fields => (valuesOf name fields).getLast?
  | _ => none

end Provenance.Json
