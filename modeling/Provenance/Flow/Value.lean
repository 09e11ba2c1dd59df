/-
# What is known about a value

Every value on the stack or in a local is described by where it was made: by a literal, an element
or field read, a call, or as a parameter; by moving or converting another value; or by values
meeting where several ways join.  A value described by an instruction is the same whenever the
analysis comes by.
-/
import Provenance.Code.Ty

namespace Provenance

/-- Whether a slot is a local or a place on the stack. -/
inductive SlotKind where
  | variable
  | operand
  deriving DecidableEq, Repr, Inhabited

/-- Where values meet: a slot before an instruction.  Operands are counted from the bottom. -/
structure MergeSlot where
  insn : Nat
  kind : SlotKind
  index : Nat
  deriving DecidableEq, Repr, Inhabited

namespace MergeSlot

def rank : SlotKind → Nat
  | .variable => 0
  | .operand => 1

/-- Ascending by instruction; locals before operands; then by index. -/
def le (a b : MergeSlot) : Bool :=
  if a.insn ≠ b.insn then a.insn < b.insn
  else if rank a.kind ≠ rank b.kind then rank a.kind < rank b.kind
  else a.index ≤ b.index

end MergeSlot

inductive FlowValue where
  /-- Nothing is known of its origin; its type is kept if it has one. -/
  | untrackable (ty : Option Ty)
  /-- A whole-number literal. -/
  | constant (ty : Ty) (insn : Nat) (value : Int64)
  /-- An element read out of an array or a string. -/
  | element (ty : Ty) (insn : Nat)
  | field (ty : Ty) (insn : Nat) (key : String)
  /-- The result of a call that has a record. -/
  | returned (ty : Ty) (insn : Nat)
  /-- A parameter whose point comes with the call record. -/
  | argument (ty : Ty) (arg : Nat)
  /-- A conversion that keeps where the value came from. -/
  | cast (ty : Ty) (insn : Nat) (target : FlowValue)
  /-- The same value, moved or duplicated by an instruction. -/
  | copy (insn : Nat) (copied : FlowValue)
  /-- Values that meet in a slot. -/
  | merged (ty : Ty) (slot : MergeSlot)
  deriving DecidableEq, Repr, Inhabited

namespace FlowValue

/-- A value of a type of which nothing else is known. -/
def ofType (t : Ty) : FlowValue := .untrackable (some t)

/-- A value after an instruction moved it.  There is nothing to follow through one of which
nothing is known. -/
def moved (insn : Nat) (v : FlowValue) : FlowValue :=
  match v with
  | .untrackable _ => v
  | _ => .copy insn v

def ty? : FlowValue → Option Ty
  | .untrackable t => t
  | .constant t _ _ | .element t _ | .field t _ _ | .returned t _ | .argument t _ | .cast t _ _
  | .merged t _ => some t
  | .copy _ v => v.ty?

/-- The instruction after which the value is there, if there is a single one. -/
def creation? : FlowValue → Option Nat
  | .constant _ i _ | .element _ i | .field _ i _ | .returned _ i | .cast _ i _ | .copy i _ =>
    some i
  | .merged _ slot => some slot.insn
  | .untrackable _ | .argument _ _ => none

/-- The value below all moves and conversions. -/
def base : FlowValue → FlowValue
  | .cast _ _ v => v.base
  | .copy _ v => v.base
  | v => v

/-- Whether something is known of the origin, as far as the value alone can tell. -/
def mayBeTrackable (v : FlowValue) : Bool :=
  match v.base with
  | .untrackable _ => false
  | _ => true

/-- The value below all moves. -/
def unmoved : FlowValue → FlowValue
  | .copy _ v => v.unmoved
  | v => v

/-- The literal that the value is. -/
def literal? (v : FlowValue) : Option Int64 :=
  match v.unmoved with
  | .constant _ _ n => some n
  | _ => none

def isString (v : FlowValue) : Bool :=
  match v.ty? with
  | some t => t.isString
  | none => false

/-- The same value with another type. -/
def retyped (t : Ty) : FlowValue → FlowValue
  | .untrackable _ => .ofType t
  | .constant _ i n => .constant t i n
  | .element _ i => .element t i
  | .field _ i key => .field t i key
  | .returned _ i => .returned t i
  | .argument _ n => .argument t n
  | .cast _ i v => .cast t i v
  | .copy i v => .copy i (v.retyped t)
  | .merged _ slot => .merged t slot

end FlowValue

/-- The types that count as `int` when they meet. -/
def Ty.isIntLike : Ty → Bool
  | .boolean | .byte | .char | .short | .int => true
  | _ => false

/-- The type of a slot in which two types meet.  References that differ become `Object`, but null
fits any of them; the small integers become `int`; anything else has no common type. -/
def mergeTypes : Option Ty → Option Ty → Option Ty
  | some a, some b =>
    if a = b then some a
    else if a.isReference && b.isReference then
      if a.isNull then some b
      else if b.isNull then some a
      else some (.object Ty.objectClass)
    else if a.isIntLike && b.isIntLike then some .int
    else none
  | _, _ => none

end Provenance
