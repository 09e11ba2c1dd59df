/-
# Frames and the effect of an instruction on them

A frame describes the locals and the stack before an instruction.  The stack has its top first.
`Frame.after` is the effect of one instruction, `Frame.entry` the frame at the start of a method.
-/
import Provenance.Code.Method
import Provenance.Flow.Carrier
import Provenance.Flow.Error
import Provenance.Flow.Value

namespace Provenance

structure Frame where
  locals : List FlowValue
  /-- The top of the stack comes first. -/
  stack : List FlowValue
  deriving DecidableEq, Repr, Inhabited

namespace Frame

/-- The value some places below the top. -/
def peek? (f : Frame) (depth : Nat) : Option FlowValue := f.stack[depth]?

/-- The value some places below the top; of one that is not there nothing is known. -/
def top (f : Frame) (depth : Nat) : FlowValue := (f.peek? depth).getD (.untrackable none)

/-- The frame with another stack. -/
def withStack (f : Frame) (stack : List FlowValue) : Frame := { f with stack }

/-- Replaces the operands on top by a value, or by nothing. -/
def popPush (f : Frame) (index count : Nat) (result : List FlowValue) : Except WeaveError Frame :=
  if f.stack.length < count then .error (.stackUnderflow index)
  else .ok (f.withStack (result ++ f.stack.drop count))

/-! ## 1. The first frame -/

/-- The parameters from the given position on, with those whose points come along marked. -/
def parameters (carried : Option (List Bool)) (arg : Nat) : List Ty → List FlowValue
  | [] => []
  | t :: ts =>
    let marked := match carried with
      | some flags => (flags[arg]?).getD false
      | none => false
    (if marked then .argument t arg else .ofType t) :: parameters carried (arg + 1) ts

/-- The receiver and the parameters in the low locals, nothing known of the others. -/
def entry (m : Method) : Except WeaveError Frame :=
  if m.maxLocals < m.paramSlots then .error (.invalidLocal 0 (m.paramSlots - 1) m.maxLocals)
  else
    let receiver := if m.isStatic then [] else [FlowValue.ofType (.object m.owner)]
    let given := receiver ++ parameters (Carrier.carriedArguments? m.name m.desc) 0 m.desc.params
    .ok ⟨given ++ List.replicate (m.maxLocals - m.paramSlots) (.untrackable none), []⟩

/-! ## 2. One instruction -/

/-- What a literal pushes. -/
def ofConstant (index : Nat) : Constant → FlowValue
  | .int v => .constant .int index v.toInt64
  | c => .ofType c.ty

/-- The small integers between which a conversion keeps the value what it is. -/
def isNarrow : Ty → Bool
  | .byte | .char | .short | .int => true
  | _ => false

/-- The result of a conversion. -/
def converted (index : Nat) (source target : Ty) (v : FlowValue) : FlowValue :=
  if isNarrow source && isNarrow target then v.retyped target
  else if ((source = .int && target = .long) || (source = .long && target = .int)) &&
      v.mayBeTrackable then .cast target index v
  else .ofType target

/-- The result of an operator.  Masking with a literal and moving right by a literal keep where
the other operand came from. -/
def combined (op : BinaryOp) (t : Ty) (first second : FlowValue) : FlowValue :=
  match op with
  | .and =>
    if second.literal?.isSome && first.literal?.isNone then first
    else if first.literal?.isSome && second.literal?.isNone then second
    else .ofType t
  | .ushr => if second.literal?.isSome then first else .ofType t
  | _ => .ofType t

/-- What a call leaves, given its operands with the last one first. -/
def callResult (index : Nat) (m : MethodRef) (args : List FlowValue) :
    Except WeaveError (List FlowValue) :=
  if Carrier.isPassThrough m then
    match args with
    | [] => .error (.stackUnderflow index)
    | last :: _ => .ok [last.retyped m.desc.ret]
  else if Carrier.isCharAt m then .ok [.element .char index]
  else match Carrier.clonedArray? m with
    | some array => .ok [.ofType array]
    | none =>
      if Carrier.carriesResult m.owner m.name m.desc then .ok [.returned m.desc.ret index]
      else if m.desc.ret = .void then .ok []
      else .ok [.ofType m.desc.ret]

/-- The frame after an instruction. -/
def after (index : Nat) (i : Insn) (f : Frame) : Except WeaveError Frame :=
  match i with
  | .nop | .label _ | .goto _ => .ok f
  | .const c => .ok (f.withStack (ofConstant index c :: f.stack))
  | .load l =>
    match f.locals[l]? with
    | some v => .ok (f.withStack (v.moved index :: f.stack))
    | none => .error (.invalidLocal index l f.locals.length)
  | .store l =>
    match f.stack with
    | [] => .error (.stackUnderflow index)
    | v :: rest =>
      if l < f.locals.length then .ok ⟨f.locals.set l (v.moved index), rest⟩
      else .error (.invalidLocal index l f.locals.length)
  | .dup =>
    match f.stack with
    | v :: rest => .ok (f.withStack (v.moved index :: v :: rest))
    | _ => .error (.stackUnderflow index)
  | .dupX1 =>
    match f.stack with
    | top :: below :: rest => .ok (f.withStack (top :: below :: top.moved index :: rest))
    | _ => .error (.stackUnderflow index)
  | .dup2 =>
    match f.stack with
    | top :: below :: rest =>
      .ok (f.withStack (top.moved index :: below.moved index :: top :: below :: rest))
    | _ => .error (.stackUnderflow index)
  | .pop => f.popPush index 1 []
  | .swap =>
    match f.stack with
    | top :: below :: rest => .ok (f.withStack (below.moved index :: top.moved index :: rest))
    | _ => .error (.stackUnderflow index)
  | .arrayLoad t =>
    f.popPush index 2 [if t.isTrackedElement then .element t index else .ofType t]
  | .arrayStore _ => f.popPush index 3 []
  | .arrayLength => f.popPush index 1 [.ofType .int]
  | .newArray t => f.popPush index 1 [.ofType (.array t)]
  | .getField fd =>
    f.popPush index 1 [if Carrier.carriesField fd then .field fd.ty index fd.key else .ofType fd.ty]
  | .putField _ => f.popPush index 2 []
  | .binary op t =>
    match f.stack with
    | second :: first :: rest => .ok (f.withStack (combined op t first second :: rest))
    | _ => .error (.stackUnderflow index)
  | .convert source target =>
    match f.stack with
    | v :: rest => .ok (f.withStack (converted index source target v :: rest))
    | _ => .error (.stackUnderflow index)
  | .invoke m =>
    if f.stack.length < m.operandCount then .error (.stackUnderflow index)
    else
      match callResult index m (f.stack.take m.operandCount) with
      | .error e => .error e
      | .ok result => .ok (f.withStack (result ++ f.stack.drop m.operandCount))
  | .concat args => f.popPush index args.length [.ofType .string]
  | .ifZero _ _ | .ifNull _ | .ifNonNull _ => f.popPush index 1 []
  | .ifCmp _ _ | .ifRefEq _ | .ifRefNe _ => f.popPush index 2 []
  | .ret t => f.popPush index (if t = .void then 0 else 1) []
  | .hook _ => .error (.unsupported index .alreadyWoven)

end Frame

end Provenance
