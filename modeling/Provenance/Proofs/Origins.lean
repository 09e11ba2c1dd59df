/-
# Where the values of a run came from

Beside a run of a woven method it is noted where each value in its locals and on its stack came from
(`Origins`): which execution of which instruction it is the result of, which parameter it is, and
for points and call records, which execution they belong to.  Moves, conversions between whole
numbers and masks hand an origin on.

An execution of an instruction is an execution of the block that weaving made of it, so a hook in
the block and the instruction itself belong to the same execution.
-/
import Provenance.Proofs.Layout
import Provenance.Proofs.Tracing

namespace Provenance

/-! ## 1. Origins -/

/-- One execution of an instruction, told apart by the number of blocks that were entered before. -/
structure Execution where
  insn : Nat
  visit : Nat
  deriving DecidableEq, Repr

/-- Where a value came from. -/
inductive Origin where
  | unknown
  /-- A whole-number literal, as it was pushed. -/
  | literal (e : Execution)
  /-- The result of a read or a call, or what a literal was converted to. -/
  | result (e : Execution)
  | parameter (n : Nat)
  /-- The point of a literal. -/
  | place (c : ClassConstant)
  /-- The point of what is read. -/
  | readPoint (e : Execution)
  /-- The record made for a call. -/
  | record (e : Execution)
  /-- The point of the result of a call, read off its record. -/
  | returnPoint (e : Execution)
  /-- The record claimed when the method started. -/
  | ownRecord
  /-- The point of a parameter, read off that record. -/
  | argumentPoint (n : Nat)
  deriving DecidableEq, Repr

namespace Origin

def isLiteral : Origin → Bool
  | literal _ => true
  | _ => false

/-- A mask or a shift by a literal keeps where the other operand came from. -/
def combined (op : BinaryOp) (first second : Origin) : Origin :=
  match op with
  | .and =>
    if second.isLiteral && !first.isLiteral then first
    else if first.isLiteral && !second.isLiteral then second
    else unknown
  | .ushr => if second.isLiteral then first else unknown
  | _ => unknown

/-- What a literal was converted to is no literal any more. -/
def widened : Origin → Origin
  | literal e => result e
  | o => o

def converted (source target : Ty) (o : Origin) : Origin :=
  if Frame.isNarrow source && Frame.isNarrow target then o
  else if (source = .int && target = .long) || (source = .long && target = .int) then o.widened
  else unknown

/-- The point in a record. -/
def returned : Origin → Origin
  | record e => returnPoint e
  | _ => unknown

/-- The point of a parameter in a record. -/
def argument (n : Nat) : Origin → Origin
  | ownRecord => argumentPoint n
  | _ => unknown

end Origin

/-- The origins of the values of an activation. -/
structure Origins where
  /-- The execution under way. -/
  here : Execution
  locals : Nat → Origin
  /-- The origin of the operand so many places below the top. -/
  stack : Nat → Origin

namespace Origins

/-- Puts operands on a stack, the first on top. -/
def onto : List Origin → (Nat → Origin) → Nat → Origin
  | [], below => below
  | o :: os, below => fun
    | 0 => o
    | n + 1 => onto os below n

theorem onto_append (os os' : List Origin) (below : Nat → Origin) :
    onto (os ++ os') below = onto os (onto os' below) := by
  induction os with
  | nil => rfl
  | cons o os ih => exact congrArg (onto [o]) ih

theorem onto_add (os : List Origin) (below : Nat → Origin) (n : Nat) :
    onto os below (n + os.length) = below n := by
  induction os with
  | nil => rfl
  | cons o os ih => exact ih

/-- The origins with another one for a local. -/
def setLocal (g : Origins) (l : Nat) (o : Origin) : Origins :=
  { g with locals := fun j => if j = l then o else g.locals j }

/-- The origins with one operand more. -/
def push (g : Origins) (o : Origin) : Origins := { g with stack := onto [o] g.stack }

/-! ## 2. One instruction -/

/-- What a hook leaves on the stack. -/
def leftByHook (g : Origins) : Hook → List Origin
  | .constantPoint c => [.place c]
  | .elementPoint | .fieldPoint _ => [.readPoint g.here]
  | .invocationCreate _ => [.record g.here]
  | .invocationSetArg _ => [g.stack 1]
  | .invocationCalling => [g.stack 0]
  | .invocationStart _ => [.ownRecord]
  | .invocationArgPoint n => [(g.stack 0).argument n]
  | .invocationReturnPoint => [(g.stack 0).returned]
  | h => List.replicate h.effect.2 .unknown

/-- What an instruction leaves on the stack, the top first. -/
def left (g : Origins) : Insn → List Origin
  | .const (.int _) => [.literal g.here]
  | .load l => [g.locals l]
  | .dup => [g.stack 0, g.stack 0]
  | .dupX1 => [g.stack 0, g.stack 1, g.stack 0]
  | .dup2 => [g.stack 0, g.stack 1, g.stack 0, g.stack 1]
  | .swap => [g.stack 1, g.stack 0]
  | .arrayLoad _ | .getField _ => [.result g.here]
  | .binary op _ => [.combined op (g.stack 1) (g.stack 0)]
  | .convert source target => [(g.stack 0).converted source target]
  | .invoke m =>
    if m.desc.ret = .void then []
    else [if Carrier.isPassThrough m then g.stack 0 else .result g.here]
  | .hook h => g.leftByHook h
  | i => List.replicate i.pushes .unknown

/-- The origins after an instruction; those of a caller already have the result of the call. -/
def after (g : Origins) (i : Insn) : Origins where
  here := g.here
  locals := match i with
    | .store l => (g.setLocal l (g.stack 0)).locals
    | _ => g.locals
  stack := onto (g.left i) fun n => g.stack (n + i.pops)

/-- The origins in a block that is entered. -/
def enter (g : Origins) (k : Nat) : Origins := { g with here := ⟨k, g.here.visit + 1⟩ }

/-- The parameters of a method lie in its low locals, behind the receiver. -/
def start (m : Method) : Origins where
  here := ⟨0, 0⟩
  locals l :=
    let receiver := if m.isStatic then 0 else 1
    if receiver ≤ l ∧ l - receiver < m.desc.params.length then
      .parameter (l - receiver) else .unknown
  stack _ := .unknown

end Origins

/-! ## 3. Notes of origins -/

namespace Plan

/-- The block that begins at a place of the woven method. -/
def opening? (p : Plan) (m : Method) (pc : Nat) : Option Nat :=
  (List.range m.insns.length).find? fun k => p.startOf m k = pc

/-- The origins with which an instruction of the woven method begins. -/
def originsAt (p : Plan) (m : Method) (pc : Nat) (g : Origins) : Origins :=
  match p.opening? m pc with
  | some k => g.enter k
  | none => g

/-- Noting the origins of the values of a woven method. -/
def originNotes (p : Plan) (m : Method) : Notes Origins where
  start _ := .start m
  after s i g := (p.originsAt m s.current.pc g).after i

end Plan

/-! ## 4. What is stored -/

/-- A point that is stored: how far below the top it lies, and how far the value it is stored for,
in front of the hook and in front of the instruction that the hook was put to. -/
structure Storing where
  point : Nat
  value : Nat
  operand : Nat
  deriving DecidableEq, Repr

/-- The points of marked operands lie above the operands, the last on top. -/
def Storing.marked (points : Nat) : List Char → List Storing
  | [] => []
  | mark :: rest =>
    let others := marked points rest
    if mark = 'T' then ⟨rest.count 'T', points + rest.length, rest.length⟩ :: others else others

/-- The points that a hook stores that was put to an instruction. -/
def Insn.stores (i : Insn) : Hook → List Storing
  | .arrayStoreWithPoint _ => [⟨0, 1, 0⟩]
  | .setFieldPoint _ | .invocationReturning => [⟨0, 2, 0⟩]
  | .invocationSetArg arg =>
    match i with
    | .invoke m =>
      let depth := m.desc.params.length - 1 - arg
      [⟨0, depth + 2, depth⟩]
    | _ => []
  | .concatWithPoints _ mask => Storing.marked (markedCount mask) mask.toList
  | _ => []

namespace Plan

/-- A point and a value that stem from the same execution of the instruction that defines the value,
or from the same parameter. -/
def Exact (p : Plan) (point value : Origin) : Definition → Prop
  | .literal k => ∃ e c, e.insn = k ∧ (value = .literal e ∨ value = .result e) ∧
      p.constants.lookup k = some c ∧ point = .place c
  | .read k => ∃ e, e.insn = k ∧ value = .result e ∧ point = .readPoint e
  | .result k => ∃ e, e.insn = k ∧ value = .result e ∧ point = .returnPoint e
  | .parameter n => value = .parameter n ∧ point = .argumentPoint n

/-- Whatever points a hook stores, they are those of the values for which it stores them, as far as
the analysis of the method gives a single definition of these. -/
def StoresExactly (p : Plan) (m : Method) (a : Analysis) (g : Origins) (h : Hook) : Prop :=
  ∀ i f, m.insns[g.here.insn]? = some i → a.frame? g.here.insn = some f →
    ∀ s ∈ i.stores h, ∀ d, (f.top s.operand).definition? = some d →
      p.Exact (g.stack s.point) (g.stack s.value) d

end Plan

end Provenance
