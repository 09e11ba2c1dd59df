/-
# Instructions of the stack machine

Operands live on a stack and in numbered locals, and every value takes one slot.  Jumps go to
labels, which are instructions that do nothing.  Hooks are the calls into the provenance store;
only woven code holds them.

`Insn.effect` says how many operands each instruction takes and leaves, `jumpTarget?` and
`fallsThrough` say where it may go on.
-/
import Provenance.Code.Constant
import Provenance.Code.Signature

namespace Provenance

/-- A field, by the class that owns it. -/
structure FieldRef where
  owner : String
  name : String
  ty : Ty
  deriving DecidableEq, Repr, Inhabited

/-- The key under which the field's provenance is kept. -/
def FieldRef.key (f : FieldRef) : String := fieldKey f.owner f.name

inductive InvokeKind where
  | static
  | virtual
  | special
  deriving DecidableEq, Repr, Inhabited

def InvokeKind.name : InvokeKind → String
  | static => "static"
  | virtual => "virtual"
  | special => "special"

/-- The name with a capital, as listings show it. -/
def InvokeKind.title : InvokeKind → String
  | static => "Static"
  | virtual => "Virtual"
  | special => "Special"

def InvokeKind.all : List InvokeKind := [static, virtual, special]

/-- The method that a call names. -/
structure MethodRef where
  kind : InvokeKind
  owner : String
  name : String
  desc : MethodDesc
  deriving DecidableEq, Repr, Inhabited

namespace MethodRef

def signature (m : MethodRef) : String := signatureOf m.name m.desc.descriptor

def hasReceiver (m : MethodRef) : Bool := m.kind != .static

/-- How many operands the call takes, the receiver included. -/
def operandCount (m : MethodRef) : Nat := m.desc.params.length + (if m.hasReceiver then 1 else 0)

end MethodRef

/-- Where a literal stands in the table of its class. -/
structure ClassConstant where
  classId : Nat
  offset : Nat
  length : Nat
  deriving DecidableEq, Repr, Inhabited

/-- A call into the provenance store.  The comments give the stack before and after. -/
inductive Hook where
  /-- Nothing to a point. -/
  | constantPoint (c : ClassConstant)
  /-- Array or string and index to a point. -/
  | elementPoint
  /-- Array, index, value and point to nothing. -/
  | arrayStoreWithPoint (elem : Ty)
  /-- Object to a point. -/
  | fieldPoint (key : String)
  /-- Object and point to nothing. -/
  | setFieldPoint (key : String)
  /-- Nothing to a call record. -/
  | invocationCreate (signature : String)
  /-- Record and point to the record. -/
  | invocationSetArg (slot : Nat)
  /-- Record to the record. -/
  | invocationCalling
  /-- Nothing to a record or null. -/
  | invocationStart (signature : String)
  /-- Record to a point. -/
  | invocationArgPoint (slot : Nat)
  /-- Record to a point. -/
  | invocationReturnPoint
  /-- Record and point to nothing. -/
  | invocationReturning
  /-- Two strings to a truth value. -/
  | stringEquals
  /-- Operands and then points to a string; the mask has a `T` for every operand with a point. -/
  | concatWithPoints (args : List Ty) (mask : String)
  /-- String to a copy of it. -/
  | constantString (classId : Nat) (offset : Nat)
  /-- The five operands of a bulk copy to nothing. -/
  | arrayCopy
  /-- Array to a copy of it. -/
  | arrayClone
  deriving DecidableEq, Repr, Inhabited

/-- How many operands of a masked concatenation come with a point. -/
def markedCount (mask : String) : Nat := mask.toList.count 'T'

/-- How many values a hook takes and leaves. -/
def Hook.effect : Hook → Nat × Nat
  | constantPoint _ | invocationCreate _ | invocationStart _ => (0, 1)
  | elementPoint => (2, 1)
  | arrayStoreWithPoint _ => (4, 0)
  | fieldPoint _ => (1, 1)
  | setFieldPoint _ => (2, 0)
  | invocationSetArg _ => (2, 1)
  | invocationCalling => (1, 1)
  | invocationArgPoint _ | invocationReturnPoint => (1, 1)
  | invocationReturning => (2, 0)
  | stringEquals => (2, 1)
  | concatWithPoints args mask => (args.length + markedCount mask, 1)
  | constantString _ _ | arrayClone => (1, 1)
  | arrayCopy => (5, 0)

/-- An instruction. -/
inductive Insn where
  | nop
  | label (id : Nat)
  | const (c : Constant)
  | load (index : Nat)
  | store (index : Nat)
  | dup
  /-- The top also goes below the value under it. -/
  | dupX1
  /-- The two top values once more, in the same order. -/
  | dup2
  | pop
  | swap
  | arrayLoad (elem : Ty)
  | arrayStore (elem : Ty)
  | arrayLength
  | newArray (elem : Ty)
  | getField (field : FieldRef)
  | putField (field : FieldRef)
  | binary (op : BinaryOp) (ty : Ty)
  | convert (source : Ty) (target : Ty)
  | invoke (method : MethodRef)
  | concat (args : List Ty)
  | goto (target : Nat)
  /-- Compares the top with zero. -/
  | ifZero (cond : Cond) (target : Nat)
  | ifCmp (cond : Cond) (target : Nat)
  | ifNull (target : Nat)
  | ifNonNull (target : Nat)
  | ifRefEq (target : Nat)
  | ifRefNe (target : Nat)
  | ret (ty : Ty)
  | hook (h : Hook)
  deriving DecidableEq, Repr, Inhabited

namespace Insn

/-- How many operands an instruction takes and leaves. -/
def effect : Insn → Nat × Nat
  | nop | label _ | goto _ => (0, 0)
  | const _ | load _ => (0, 1)
  | store _ | pop => (1, 0)
  | dup => (1, 2)
  | dupX1 => (2, 3)
  | dup2 => (2, 4)
  | swap => (2, 2)
  | arrayLoad _ => (2, 1)
  | arrayStore _ => (3, 0)
  | arrayLength | newArray _ | getField _ | convert _ _ => (1, 1)
  | putField _ => (2, 0)
  | binary _ _ => (2, 1)
  | invoke m => (m.operandCount, if m.desc.ret = .void then 0 else 1)
  | concat args => (args.length, 1)
  | ifZero _ _ | ifNull _ | ifNonNull _ => (1, 0)
  | ifCmp _ _ | ifRefEq _ | ifRefNe _ => (2, 0)
  | ret t => (if t = .void then 0 else 1, 0)
  | hook h => h.effect

def pops (i : Insn) : Nat := i.effect.1
def pushes (i : Insn) : Nat := i.effect.2

/-- The label an instruction may jump to. -/
def jumpTarget? : Insn → Option Nat
  | goto l | ifZero _ l | ifCmp _ l | ifNull l | ifNonNull l | ifRefEq l | ifRefNe l => some l
  | _ => none

/-- Whether the next instruction may follow. -/
def fallsThrough : Insn → Bool
  | goto _ | ret _ => false
  | _ => true

def isReturn : Insn → Bool
  | ret _ => true
  | _ => false

/-- The local that an instruction reads or writes. -/
def local? : Insn → Option Nat
  | load index | store index => some index
  | _ => none

/-- The label that an instruction is. -/
def label? : Insn → Option Nat
  | label l => some l
  | _ => none

end Insn

end Provenance
