/-
# Methods and classes

A method is a descriptor and a list of instructions, with the number of locals it uses and the
depth of stack it declares.  Labels are found by position: `labelAt?` gives the first label of
that number, and `repeatedLabel?` the first one that stands there a second time.
-/
import Provenance.Code.Insn

namespace Provenance

structure Method where
  owner : String
  name : String
  desc : MethodDesc
  isStatic : Bool
  maxLocals : Nat
  maxStack : Nat
  insns : List Insn
  deriving DecidableEq, Repr, Inhabited

namespace Method

/-- The locals taken by the receiver and the parameters. -/
def paramSlots (m : Method) : Nat := m.desc.params.length + (if m.isStatic then 0 else 1)

/-- A method without a body, with room for its parameters. -/
def declare (owner name : String) (desc : MethodDesc) (isStatic : Bool) : Method :=
  let m : Method := ⟨owner, name, desc, isStatic, 0, 0, []⟩
  { m with maxLocals := m.paramSlots }

/-- One more than the highest local that the instructions touch. -/
def usedLocals (insns : List Insn) : Nat :=
  insns.foldl (fun n i => match i.local? with | some index => max n (index + 1) | none => n) 0

/-- Gives the method a body, with locals for all that the body touches. -/
def withBody (m : Method) (insns : List Insn) : Method :=
  { m with insns, maxLocals := max m.maxLocals (usedLocals insns) }

def signature (m : Method) : String := signatureOf m.name m.desc.descriptor

/-- The method as people write it: result, name and parameters. -/
def description (m : Method) : String :=
  m.desc.ret.display ++ " " ++ m.name ++ "(" ++
  ", ".intercalate (m.desc.params.map Ty.display) ++ ")"

/-- Where a label stands. -/
def labelAt? (m : Method) (l : Nat) : Option Nat :=
  m.insns.findIdx? fun i => i.label? == some l

/-- The position and number of the first label already seen. -/
def repeatedFrom (seen : List Nat) (index : Nat) : List Insn → Option (Nat × Nat)
  | [] => none
  | i :: rest =>
    match i.label? with
    | some l => if l ∈ seen then some (index, l) else repeatedFrom (l :: seen) (index + 1) rest
    | none => repeatedFrom seen (index + 1) rest

/-- The first label that stands a second time, with its position. -/
def repeatedLabel? (m : Method) : Option (Nat × Nat) := repeatedFrom [] 0 m.insns

end Method

structure Class where
  name : String
  methods : List Method
  deriving DecidableEq, Repr, Inhabited

/-- The first method of that name. -/
def Class.method? (c : Class) (name : String) : Option Method :=
  c.methods.find? fun m => m.name == name

end Provenance
