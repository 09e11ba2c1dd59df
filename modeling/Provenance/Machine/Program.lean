/-
# Loaded programs

A program is the classes that were loaded and the natives.  A loaded method keeps beside its
instructions what the machine asks for at every call.
-/
import Provenance.Code.Method
import Provenance.Machine.Native

namespace Provenance

/-- A method made ready to run. -/
structure Routine where
  method : Method
  /-- Owner, name and descriptor. -/
  key : String
  descriptor : String
  insns : Array Insn
  /-- What is wrong with its labels. -/
  labelFault : Option WeaveError
  deriving Repr

namespace Routine

def ofMethod (m : Method) : Routine :=
  let descriptor := m.desc.descriptor
  { method := m
    key := methodKey m.owner m.name descriptor
    descriptor
    insns := m.insns.toArray
    labelFault := m.repeatedLabel?.map fun (index, label) => .duplicateLabel index label }

/-- The locals at the start: the arguments, then nothing. -/
def locals (r : Routine) (args : List Value) : Array Value :=
  (args ++ List.replicate (r.method.maxLocals - args.length) Value.null).toArray

end Routine

structure Program where
  classes : List (String × List Routine)
  natives : List (String × Native)

namespace Program

def empty : Program := ⟨[], Native.builtIn⟩

instance : Inhabited Program := ⟨empty⟩

/-- The list with an entry in place of the one of the same name. -/
def replace {α : Type} (name : String) (a : α) : List (String × α) → List (String × α)
  | [] => [(name, a)]
  | (k, b) :: rest => if k = name then (name, a) :: rest else (k, b) :: replace name a rest

/-- Loads a class in place of one of the same name. -/
def load (p : Program) (c : Class) : Program :=
  { p with classes := replace c.name (c.methods.map Routine.ofMethod) p.classes }

/-- Registers a native in place of one of the same key. -/
def register (p : Program) (key : String) (n : Native) : Program :=
  { p with natives := replace key n p.natives }

/-- The loaded method of that name and descriptor. -/
def routine? (p : Program) (owner name descriptor : String) : Option Routine := do
  let routines ← p.classes.lookup owner
  routines.find? fun r => r.method.name == name && r.descriptor == descriptor

def native? (p : Program) (key : String) : Option Native := p.natives.lookup key

/-- The values that natives hold on to. -/
def held (p : Program) : List Value := p.natives.flatMap fun e => e.2.held

end Program

end Provenance
