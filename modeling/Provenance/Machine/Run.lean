/-
# Running methods

The machine is a step function on states: the activation at work and those that wait for it.
`perform` does one instruction in an activation and says where to go on, `Program.step` goes
there, and `Program.run` repeats this as long as the budget of instructions lasts.
-/
import Provenance.Machine.Arith
import Provenance.Machine.Hook
import Provenance.Machine.Program
import Provenance.Machine.Settings

namespace Provenance

/-- A method at work. -/
structure Activation where
  routine : Routine
  pc : Nat
  locals : Array Value
  /-- The operands, the top first. -/
  stack : List Value
  deriving Repr

/-- An activation that waits for the result of a call. -/
structure Waiting where
  activation : Activation
  /-- The type of the result. -/
  ret : Ty
  deriving Repr

/-- A run in progress. -/
structure RunState where
  world : World
  current : Activation
  /-- Those that wait, the latest caller first. -/
  callers : List Waiting
  deriving Repr

/-- How a run ended. -/
structure RunResult where
  outcome : Except RunError (Option Value)
  world : World

/-- Where a run stands after a step. -/
inductive Progress where
  | running (s : RunState)
  | ended (r : RunResult)

/-- Where an instruction goes on. -/
inductive Transfer where
  | next
  | jump (label : Nat)
  | call (method : MethodRef) (args : List Value)
  | ret (v : Option Value)
  deriving Repr

/-! ## 1. One instruction -/

namespace Activation

/-- How an instruction fails for want of operands. -/
def underflow (a : Activation) : RunError := .stackUnderflow a.routine.key a.pc

end Activation

/-- The values of the running methods. -/
def RunState.inUse (current : Activation) (callers : List Waiting) : Thunk (List Value) :=
  .mk fun _ => current.stack ++ current.locals.toList ++
    callers.flatMap fun c => c.activation.stack ++ c.activation.locals.toList

namespace Work

/-- The literal that a constant stands for. -/
def constant : Constant → Work Value
  | .int n => return .int n
  | .long n => return .long n
  | .float x => return .float x
  | .double x => return .double x
  | .null => return .null
  | .str text => do return .ref (← onWorld fun w => w.literal text)

@[inline] def loadLocal (method : String) (index : Nat) : Work Value := .inspect fun b =>
  match b.locals[index]? with
  | some v => .ok v
  | none => .error (.invalidLocal method index)

@[inline] def storeLocal (method : String) (index : Nat) (v : Value) : Work Unit := do
  Action.inspect fun b =>
    if index < b.locals.size then .ok () else .error (.invalidLocal method index)
  Action.update fun b => ((), { b with locals := b.locals.setIfInBounds index v })

/-- The text of operands with their types. -/
def concatText (args : List Ty) (values : List Value) : Work String := .inspect fun b =>
  .ok ("".intercalate ((args.zip values).map fun (t, v) => b.world.render t v))

/-- Jumps if the condition is met. -/
@[inline] def jumpIf (condition : Bool) (label : Nat) : Transfer :=
  if condition then .jump label else .next

/-- Does one instruction. -/
def perform (method : String) (underflow : RunError) (inUse : Thunk (List Value)) :
    Insn → Work Transfer
  | .nop | .label _ => return .next
  | .const c => do
    push (← constant c)
    return .next
  | .load index => do
    push (← loadLocal method index)
    return .next
  | .store index => do
    storeLocal method index (← pop underflow)
    return .next
  | .dup => do
    let v ← pop underflow
    push v
    push v
    return .next
  | .dupX1 => do
    let b ← pop underflow
    let a ← pop underflow
    push b
    push a
    push b
    return .next
  | .dup2 => do
    let b ← pop underflow
    let a ← pop underflow
    push a
    push b
    push a
    push b
    return .next
  | .pop => do
    let _ ← pop underflow
    return .next
  | .swap => do
    let b ← pop underflow
    let a ← pop underflow
    push b
    push a
    return .next
  | .arrayLoad _ => do
    let index ← popInt underflow
    let array ← popTarget underflow "array load"
    push (← fromHeap fun h => h.load array index)
    return .next
  | .arrayStore _ => do
    let value ← pop underflow
    let index ← popInt underflow
    let array ← popTarget underflow "array store"
    storeElement array index value
    return .next
  | .arrayLength => do
    let array ← popTarget underflow "array length"
    let n ← fromHeap fun h => h.length array
    push (.int (Heap.lengthAsInt n))
    return .next
  | .newArray elem => do
    let count ← popInt underflow
    if count < 0 then throw (.negativeArraySize count.toInt)
    else
      push (.ref (← allocate (.newArray elem count.toInt.toNat)))
      return .next
  | .getField f => do
    let o ← popTarget underflow f.name
    push (← fromHeap fun h => h.getField o f.name f.ty)
    return .next
  | .putField f => do
    let value ← pop underflow
    let o ← popTarget underflow f.name
    changeHeap fun h => h.putField o f.name f.ty value
    return .next
  | .binary op t => do
    let b ← pop underflow
    let a ← pop underflow
    push (← fromHeap fun h => h.binary op t a b)
    return .next
  | .convert _ target => do
    let v ← pop underflow
    push (← fromHeap fun h => h.convert target v)
    return .next
  | .invoke m => return .call m (← popMany underflow m.operandCount)
  | .concat args => do
    let values ← popMany underflow args.length
    let text ← concatText args values
    push (.ref (← allocate (.ofText text)))
    return .next
  | .goto l => return .jump l
  | .ifZero cond l => do
    let v ← popInt underflow
    return jumpIf (cond.holds (compare v.toInt 0)) l
  | .ifCmp cond l => do
    let b ← popInt underflow
    let a ← popInt underflow
    return jumpIf (cond.holds (compare a.toInt b.toInt)) l
  | .ifNull l => do
    let v ← pop underflow
    let o ← fromHeap fun h => h.reference v
    return jumpIf o.isNone l
  | .ifNonNull l => do
    let v ← pop underflow
    let o ← fromHeap fun h => h.reference v
    return jumpIf o.isSome l
  | .ifRefEq l => do
    let b ← pop underflow
    let a ← pop underflow
    return jumpIf (← fromHeap fun h => h.sameReference a b) l
  | .ifRefNe l => do
    let b ← pop underflow
    let a ← pop underflow
    return jumpIf (!(← fromHeap fun h => h.sameReference a b)) l
  | .ret t => do
    if t = .void then return .ret none else return .ret (some (← pop underflow))
  | .hook h => do
    hook inUse h
    return .next

end Work

/-! ## 2. Calls and returns -/

/-- Hands the result of a call to the activation that waits for it, or ends the run. -/
def deliver (world : World) (v : Option Value) : List Waiting → Progress
  | [] => .ended ⟨.ok v, world⟩
  | caller :: callers =>
    let a := caller.activation
    let a := if caller.ret = .void then a
      else { a with stack := v.getD (Value.defaultFor caller.ret) :: a.stack }
    .running ⟨world, a, callers⟩

namespace Program

/-- Starts a loaded method. -/
def activate (world : World) (callers : List Waiting) (r : Routine) (args : List Value) :
    Progress :=
  match r.labelFault with
  | some e => .ended ⟨.error (.invalidMethod r.key (.labels e)), world⟩
  | none =>
    if args.length = r.method.paramSlots then
      .running ⟨world, ⟨r, 0, r.locals args, []⟩, callers⟩
    else
      .ended ⟨.error (.invalidMethod r.key (.argumentCount r.method.paramSlots args.length)), world⟩

/-- Calls a native; the record that waits for a callee is claimed for it. -/
def callNative (world : World) (callers : List Waiting) (n : Native) (key signature : String)
    (args : List Value) : Progress :=
  let (record, store) := world.store.claim signature
  match (n.body ⟨key, args, record⟩).outcome { world with store } with
  | (.error e, world) => .ended ⟨.error e, world⟩
  | (.ok v, world) => deliver world v callers

/-- Calls a method, loaded or native, on behalf of the waiting activations. -/
def enter (p : Program) (limits : MachineSettings) (world : World) (callers : List Waiting)
    (owner name descriptor : String) (args : List Value) : Progress :=
  if limits.maxCallDepth ≤ callers.length then
    .ended ⟨.error (.callDepthExceeded limits.maxCallDepth), world⟩
  else
    match p.routine? owner name descriptor with
    | some r => activate world callers r args
    | none =>
      let key := methodKey owner name descriptor
      match p.native? key with
      | none => .ended ⟨.error (.unknownMethod key), world⟩
      | some n => callNative world callers n key (signatureOf name descriptor) args

/-- Goes on where an instruction of the activation says. -/
def transfer (p : Program) (limits : MachineSettings) (world : World) (a : Activation)
    (callers : List Waiting) : Transfer → Progress
  | .next => .running ⟨world, { a with pc := a.pc + 1 }, callers⟩
  | .jump label =>
    match a.routine.method.labelAt? label with
    | some pc => .running ⟨world, { a with pc }, callers⟩
    | none => .ended ⟨.error (.invalidMethod a.routine.key (.unknownLabel label)), world⟩
  | .call m args =>
    let waiting : Waiting := ⟨{ a with pc := a.pc + 1 }, m.desc.ret⟩
    p.enter limits world (waiting :: callers) m.owner m.name m.desc.descriptor args
  | .ret v => deliver world v callers

/-- Does an instruction of the current activation. -/
def step (p : Program) (limits : MachineSettings) (s : RunState) (i : Insn) : Progress :=
  let ⟨world, a, callers⟩ := s
  let work := Work.perform a.routine.key a.underflow (RunState.inUse a callers) i
  match work.outcome ⟨world, a.locals, a.stack⟩ with
  | (.error e, b) => .ended ⟨.error e, b.world⟩
  | (.ok t, b) =>
    p.transfer limits b.world { a with locals := b.locals, stack := b.stack } callers t

/-- Goes on until the run ends or the budget of instructions is used up. -/
def run (p : Program) (limits : MachineSettings) : Nat → RunState → RunResult
  | budget, s =>
    match s.current.routine.insns[s.current.pc]? with
    | none => ⟨.error (.fellOffEnd s.current.routine.key), s.world⟩
    | some i =>
      match budget with
      | 0 => ⟨.error (.instructionLimit limits.maxInstructions), s.world⟩
      | budget + 1 =>
        match p.step limits s i with
        | .running s => p.run limits budget s
        | .ended r => r

/-- Calls a method from outside, the receiver first among the arguments if it has one. -/
def invoke (p : Program) (limits : MachineSettings) (world : World)
    (owner name descriptor : String) (args : List Value) : RunResult :=
  match p.enter limits world [] owner name descriptor args with
  | .running s => p.run limits limits.maxInstructions s
  | .ended r => r

end Program

end Provenance
