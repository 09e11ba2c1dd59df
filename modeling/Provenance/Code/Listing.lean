/-
# Listings

The readable form of a class: each method with a line of its own, and below it the instructions,
numbered, one on a line.
-/
import Provenance.Code.Method

namespace Provenance

namespace Listing

/-- A text between quotes, as it stands. -/
def inQuotes (s : String) : String := "\"" ++ s ++ "\""

def labelName (l : Nat) : String := "L" ++ toString l

/-- A number with blanks before it up to a width of four. -/
def padded (n : Nat) : String :=
  let ds := Nat.toDigits 10 n
  String.ofList (List.replicate (4 - ds.length) ' ' ++ ds)

end Listing

open Listing

def Hook.display : Hook → String
  | constantPoint c =>
    "constant_point " ++ toString c.classId ++ " " ++ toString c.offset ++ " " ++ toString c.length
  | elementPoint => "element_point"
  | arrayStoreWithPoint t => "array_store_with_point " ++ t.display
  | fieldPoint key => "field_point " ++ inQuotes key
  | setFieldPoint key => "set_field_point " ++ inQuotes key
  | invocationCreate s => "invocation_create " ++ inQuotes s
  | invocationSetArg n => "invocation_set_arg " ++ toString n
  | invocationCalling => "invocation_calling"
  | invocationStart s => "invocation_start " ++ inQuotes s
  | invocationArgPoint n => "invocation_arg_point " ++ toString n
  | invocationReturnPoint => "invocation_return_point"
  | invocationReturning => "invocation_returning"
  | stringEquals => "string_equals"
  | concatWithPoints _ mask => "concat_with_points " ++ mask
  | constantString classId offset =>
    "constant_string " ++ toString classId ++ " " ++ toString offset
  | arrayCopy => "array_copy"
  | arrayClone => "array_clone"

def FieldRef.display (f : FieldRef) : String := f.owner ++ "." ++ f.name ++ " " ++ f.ty.display

def Insn.display : Insn → String
  | nop => "nop"
  | label l => labelName l ++ ":"
  | const c => "const " ++ c.display
  | load n => "load " ++ toString n
  | store n => "store " ++ toString n
  | dup => "dup"
  | dupX1 => "dup_x1"
  | dup2 => "dup2"
  | pop => "pop"
  | swap => "swap"
  | arrayLoad t => "array_load " ++ t.display
  | arrayStore t => "array_store " ++ t.display
  | arrayLength => "array_length"
  | newArray t => "new_array " ++ t.display
  | getField f => "get_field " ++ f.display
  | putField f => "put_field " ++ f.display
  | binary op t => op.name ++ " " ++ t.display
  | convert source target => "convert " ++ source.display ++ " -> " ++ target.display
  | invoke m =>
    "invoke " ++ m.kind.title ++ " " ++ m.owner ++ "." ++ m.name ++ " " ++ m.desc.descriptor
  | concat args => "concat (" ++ ", ".intercalate (args.map Ty.display) ++ ")"
  | goto l => "goto " ++ labelName l
  | ifZero c l => "if " ++ c.title ++ " " ++ labelName l
  | ifCmp c l => "if_cmp " ++ c.title ++ " " ++ labelName l
  | ifNull l => "if_null " ++ labelName l
  | ifNonNull l => "if_non_null " ++ labelName l
  | ifRefEq l => "if_ref_eq " ++ labelName l
  | ifRefNe l => "if_ref_ne " ++ labelName l
  | ret t => "return " ++ t.display
  | hook h => "hook " ++ h.display

/-- The lines of instructions, the first of them with the given number. -/
def Listing.insnLines (index : Nat) : List Insn → List String
  | [] => []
  | i :: rest => (padded index ++ "  " ++ i.display ++ "\n") :: insnLines (index + 1) rest

def Method.listing (m : Method) : String :=
  let head := (if m.isStatic then "static" else "virtual") ++ " " ++ m.name ++ m.desc.descriptor ++
    " locals=" ++ toString m.maxLocals ++ " stack=" ++ toString m.maxStack ++ "\n"
  String.join (head :: insnLines 0 m.insns)

def Class.listing (c : Class) : String :=
  "class " ++ c.name ++ "\n" ++ String.join (c.methods.map fun m => "\n" ++ m.listing)

end Provenance
