/-
# The stored form of classes

A class is stored as JSON.  A type or a method descriptor is its text, an instruction without
operands is its name, and any other one is an object with its name as the only field.  `encode`
functions write this form and `decode?` functions read it; the reader also takes a record as the
list of its fields, and a bare name with `null` after it.
-/
import Provenance.Code.Method
import Provenance.Json.Decode
import Provenance.Number.Numeral

namespace Provenance

/-! ## 1. Types, fields and methods by name -/

def Ty.encode (t : Ty) : Json := .text t.descriptor

def Ty.decode? (j : Json) : Option Ty := do
  (Ty.parse (← j.asText?)).toOption

def MethodDesc.encode (d : MethodDesc) : Json := .text d.descriptor

def MethodDesc.decode? (j : Json) : Option MethodDesc := do
  (MethodDesc.parse (← j.asText?)).toOption

def FieldRef.encode (f : FieldRef) : Json :=
  .object [("owner", .text f.owner), ("name", .text f.name), ("ty", f.ty.encode)]

def FieldRef.decode? (j : Json) : Option FieldRef := do
  match ← j.record? ["owner", "name", "ty"] with
  | [some owner, some name, some ty] =>
    some ⟨← owner.asText?, ← name.asText?, ← Ty.decode? ty⟩
  | _ => none

/-- The member of a list whose name is the tag, when nothing is carried. -/
def decodeNamed? {α : Type} (all : List α) (name : α → String) (j : Json) : Option α := do
  let (tag, payload) ← j.variant?
  Json.bare? payload
  all.find? fun a => name a == tag

def InvokeKind.encode (k : InvokeKind) : Json := .text k.name
def InvokeKind.decode? : Json → Option InvokeKind := decodeNamed? InvokeKind.all InvokeKind.name

def MethodRef.encode (m : MethodRef) : Json :=
  .object [("kind", m.kind.encode), ("owner", .text m.owner), ("name", .text m.name),
    ("desc", m.desc.encode)]

def MethodRef.decode? (j : Json) : Option MethodRef := do
  match ← j.record? ["kind", "owner", "name", "desc"] with
  | [some kind, some owner, some name, some desc] =>
    some ⟨← InvokeKind.decode? kind, ← owner.asText?, ← name.asText?, ← MethodDesc.decode? desc⟩
  | _ => none

/-! ## 2. Literals, operators, conditions -/

/-- Indices of locals and depths of stacks. -/
def localBound : Nat := twoTo 16
/-- Numbers of labels and of constant tables. -/
def labelBound : Nat := twoTo 32
/-- Numbers of argument slots. -/
def slotBound : Nat := twoTo 8
/-- Places in a constant table. -/
def placeBound : Nat := Numeral.wordBound

def Constant.encode : Constant → Json
  | .int v => .tagged "int" (.int v.toInt)
  | .long v => .tagged "long" (.int v.toInt)
  | .float v => .tagged "float" (if v.isFinite then .number (.single v) else .null)
  | .double v => .tagged "double" (if v.isFinite then .number (.double v) else .null)
  | .null => .text "null"
  | .str s => .tagged "str" (.text s)

def Constant.decode? (j : Json) : Option Constant := do
  match ← j.variant? with
  | ("int", some p) => (p.asInt? Numeral.intBound).map fun i => .int (.ofInt i)
  | ("long", some p) => (p.asInt? Numeral.longBound).map fun i => .long (.ofInt i)
  | ("float", some p) => p.asSingle?.map .float
  | ("double", some p) => p.asDouble?.map .double
  | ("null", p) => (Json.bare? p).map fun _ => .null
  | ("str", some p) => p.asText?.map .str
  | _ => none

def BinaryOp.encode (op : BinaryOp) : Json := .text op.name
def BinaryOp.decode? : Json → Option BinaryOp := decodeNamed? BinaryOp.all BinaryOp.name

def Cond.encode (c : Cond) : Json := .text c.name
def Cond.decode? : Json → Option Cond := decodeNamed? Cond.all Cond.name

/-! ## 3. Hooks -/

def ClassConstant.encode (c : ClassConstant) : Json :=
  .object [("class_id", .nat c.classId), ("offset", .nat c.offset), ("length", .nat c.length)]

def ClassConstant.decode? (j : Json) : Option ClassConstant := do
  match ← j.record? ["class_id", "offset", "length"] with
  | [some classId, some offset, some length] =>
    some ⟨← classId.asNat? labelBound, ← offset.asNat? placeBound, ← length.asNat? placeBound⟩
  | _ => none

def Hook.encode : Hook → Json
  | constantPoint c => .tagged "constant_point" c.encode
  | elementPoint => .text "element_point"
  | arrayStoreWithPoint t => .tagged "array_store_with_point" t.encode
  | fieldPoint key => .tagged "field_point" (.text key)
  | setFieldPoint key => .tagged "set_field_point" (.text key)
  | invocationCreate s => .tagged "invocation_create" (.text s)
  | invocationSetArg n => .tagged "invocation_set_arg" (.nat n)
  | invocationCalling => .text "invocation_calling"
  | invocationStart s => .tagged "invocation_start" (.text s)
  | invocationArgPoint n => .tagged "invocation_arg_point" (.nat n)
  | invocationReturnPoint => .text "invocation_return_point"
  | invocationReturning => .text "invocation_returning"
  | stringEquals => .text "string_equals"
  | concatWithPoints args mask =>
    .tagged "concat_with_points"
      (.object [("args", .list (args.map Ty.encode)), ("mask", .text mask)])
  | constantString classId offset =>
    .tagged "constant_string" (.object [("class_id", .nat classId), ("offset", .nat offset)])
  | arrayCopy => .text "array_copy"
  | arrayClone => .text "array_clone"

/-- The hooks without operands. -/
def Hook.bare : List (String × Hook) :=
  [("element_point", elementPoint), ("invocation_calling", invocationCalling),
   ("invocation_return_point", invocationReturnPoint),
   ("invocation_returning", invocationReturning), ("string_equals", stringEquals),
   ("array_copy", arrayCopy), ("array_clone", arrayClone)]

/-- A hook with operands, by its name. -/
def Hook.decodeLoaded? (tag : String) (p : Json) : Option Hook :=
  match tag with
  | "constant_point" => (ClassConstant.decode? p).map constantPoint
  | "array_store_with_point" => (Ty.decode? p).map arrayStoreWithPoint
  | "field_point" => p.asText?.map fieldPoint
  | "set_field_point" => p.asText?.map setFieldPoint
  | "invocation_create" => p.asText?.map invocationCreate
  | "invocation_set_arg" => (p.asNat? slotBound).map invocationSetArg
  | "invocation_start" => p.asText?.map invocationStart
  | "invocation_arg_point" => (p.asNat? slotBound).map invocationArgPoint
  | "concat_with_points" => do
    match ← p.record? ["args", "mask"] with
    | [some args, some mask] => some (concatWithPoints (← args.asList? Ty.decode?) (← mask.asText?))
    | _ => none
  | "constant_string" => do
    match ← p.record? ["class_id", "offset"] with
    | [some classId, some offset] =>
      some (constantString (← classId.asNat? labelBound) (← offset.asNat? placeBound))
    | _ => none
  | _ => none

def Hook.decode? (j : Json) : Option Hook := do
  let (tag, payload) ← j.variant?
  match Hook.bare.lookup tag with
  | some h => (Json.bare? payload).map fun _ => h
  | none => Hook.decodeLoaded? tag (← payload)

/-! ## 4. Instructions -/

/-- The operands of a conditional jump. -/
def encodeBranch (c : Cond) (l : Nat) : Json := .object [("cond", c.encode), ("target", .nat l)]

def Insn.encode : Insn → Json
  | nop => .text "nop"
  | label l => .tagged "label" (.nat l)
  | const c => .tagged "const" c.encode
  | load n => .tagged "load" (.nat n)
  | store n => .tagged "store" (.nat n)
  | dup => .text "dup"
  | dupX1 => .text "dup_x1"
  | dup2 => .text "dup2"
  | pop => .text "pop"
  | swap => .text "swap"
  | arrayLoad t => .tagged "array_load" t.encode
  | arrayStore t => .tagged "array_store" t.encode
  | arrayLength => .text "array_length"
  | newArray t => .tagged "new_array" t.encode
  | getField f => .tagged "get_field" f.encode
  | putField f => .tagged "put_field" f.encode
  | binary op t => .tagged "binary" (.object [("op", op.encode), ("ty", t.encode)])
  | convert source target =>
    .tagged "convert" (.object [("from", source.encode), ("to", target.encode)])
  | invoke m => .tagged "invoke" m.encode
  | concat args => .tagged "concat" (.list (args.map Ty.encode))
  | goto l => .tagged "goto" (.nat l)
  | ifZero c l => .tagged "if" (encodeBranch c l)
  | ifCmp c l => .tagged "if_cmp" (encodeBranch c l)
  | ifNull l => .tagged "if_null" (.nat l)
  | ifNonNull l => .tagged "if_non_null" (.nat l)
  | ifRefEq l => .tagged "if_ref_eq" (.nat l)
  | ifRefNe l => .tagged "if_ref_ne" (.nat l)
  | ret t => .tagged "return" t.encode
  | hook h => .tagged "hook" h.encode

/-- The instructions without operands. -/
def Insn.bare : List (String × Insn) :=
  [("nop", nop), ("dup", dup), ("dup_x1", dupX1), ("dup2", dup2), ("pop", pop), ("swap", swap),
   ("array_length", arrayLength)]

def decodeBranch? (j : Json) : Option (Cond × Nat) := do
  match ← j.record? ["cond", "target"] with
  | [some cond, some target] => some (← Cond.decode? cond, ← target.asNat? labelBound)
  | _ => none

/-- An instruction with operands, by its name. -/
def Insn.decodeLoaded? (tag : String) (p : Json) : Option Insn :=
  match tag with
  | "label" => (p.asNat? labelBound).map label
  | "const" => (Constant.decode? p).map const
  | "load" => (p.asNat? localBound).map load
  | "store" => (p.asNat? localBound).map store
  | "array_load" => (Ty.decode? p).map arrayLoad
  | "array_store" => (Ty.decode? p).map arrayStore
  | "new_array" => (Ty.decode? p).map newArray
  | "get_field" => (FieldRef.decode? p).map getField
  | "put_field" => (FieldRef.decode? p).map putField
  | "binary" => do
    match ← p.record? ["op", "ty"] with
    | [some op, some ty] => some (binary (← BinaryOp.decode? op) (← Ty.decode? ty))
    | _ => none
  | "convert" => do
    match ← p.record? ["from", "to"] with
    | [some source, some target] => some (convert (← Ty.decode? source) (← Ty.decode? target))
    | _ => none
  | "invoke" => (MethodRef.decode? p).map invoke
  | "concat" => (p.asList? Ty.decode?).map concat
  | "goto" => (p.asNat? labelBound).map goto
  | "if" => (decodeBranch? p).map fun (c, l) => ifZero c l
  | "if_cmp" => (decodeBranch? p).map fun (c, l) => ifCmp c l
  | "if_null" => (p.asNat? labelBound).map ifNull
  | "if_non_null" => (p.asNat? labelBound).map ifNonNull
  | "if_ref_eq" => (p.asNat? labelBound).map ifRefEq
  | "if_ref_ne" => (p.asNat? labelBound).map ifRefNe
  | "return" => (Ty.decode? p).map ret
  | "hook" => (Hook.decode? p).map hook
  | _ => none

def Insn.decode? (j : Json) : Option Insn := do
  let (tag, payload) ← j.variant?
  match Insn.bare.lookup tag with
  | some i => (Json.bare? payload).map fun _ => i
  | none => Insn.decodeLoaded? tag (← payload)

/-! ## 5. Methods and classes -/

def Method.encode (m : Method) : Json :=
  .object [("owner", .text m.owner), ("name", .text m.name), ("desc", m.desc.encode),
    ("is_static", .bool m.isStatic), ("max_locals", .nat m.maxLocals),
    ("max_stack", .nat m.maxStack), ("insns", .list (m.insns.map Insn.encode))]

/-- A missing field may have a default. -/
def orElse? {α : Type} (default : α) (f : Json → Option α) : Option Json → Option α
  | none => some default
  | some j => f j

def Method.decode? (j : Json) : Option Method := do
  match ← j.record? ["owner", "name", "desc", "is_static", "max_locals", "max_stack", "insns"] with
  | [some owner, some name, some desc, isStatic, some maxLocals, maxStack, some insns] =>
    some ⟨← owner.asText?, ← name.asText?, ← MethodDesc.decode? desc,
      ← orElse? false Json.asBool? isStatic, ← maxLocals.asNat? localBound,
      ← orElse? 0 (Json.asNat? localBound) maxStack, ← insns.asList? Insn.decode?⟩
  | _ => none

def Class.encode (c : Class) : Json :=
  .object [("name", .text c.name), ("methods", .list (c.methods.map Method.encode))]

def Class.decode? (j : Json) : Option Class := do
  match ← j.record? ["name", "methods"] with
  | [some name, some methods] => some ⟨← name.asText?, ← methods.asList? Method.decode?⟩
  | _ => none

end Provenance
