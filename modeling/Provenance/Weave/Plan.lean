/-
# Planning the code to insert

A plan collects code for the instructions of a method: code before one, after one, in place of
one, and what a call record is given before a call.  New locals are numbered above those of the
method and hold null until their producer runs.

`ensureTracked` plans, once for each value, what is needed for `loadPoint` to give code that pushes
the point of the value; `planSite` plans the code of a store site; `woven` puts everything
together.  A literal that is registered on the way stays registered even if planning fails.
-/
import Provenance.Store.Literals
import Provenance.Weave.Site

namespace Provenance

/-- The table of literals of the class being woven, opened when it is first needed. -/
structure LiteralPool where
  store : Store
  className : String
  /-- The number of the table, once there is one. -/
  table : Option Nat
  /-- The method whose section is open. -/
  heading : Option String
  deriving Repr

namespace LiteralPool

def ofClass (store : Store) (className : String) : LiteralPool := ⟨store, className, none, none⟩

/-- The table, opened if need be. -/
def withTable (p : LiteralPool) : Except StoreError (Nat × LiteralPool) :=
  match p.table with
  | some classId => .ok (classId, p)
  | none =>
    match p.store.registerClass p.className with
    | .error e => .error e
    | .ok (classId, store) => .ok (classId, { p with store, table := some classId })

/-- The table with the section of a method open. -/
def withSection (p : LiteralPool) (m : Method) : Except StoreError (Nat × LiteralPool) :=
  match p.withTable with
  | .error e => .error e
  | .ok (classId, p) =>
    if p.heading = some m.signature then .ok (classId, p)
    else match p.store.startMethod classId m.description with
      | .error e => .error e
      | .ok store => .ok (classId, { p with store, heading := some m.signature })

/-- Registers a whole-number literal of a method. -/
def constant (p : LiteralPool) (m : Method) (value : Int64) :
    Except StoreError (ClassConstant × LiteralPool) :=
  match p.withSection m with
  | .error e => .error e
  | .ok (classId, p) =>
    match p.store.registerConstant classId value with
    | .error e => .error e
    | .ok (c, store) => .ok (c, { p with store })

/-- Registers a string literal of a method, giving its table and its first byte. -/
def string (p : LiteralPool) (m : Method) (text : String) :
    Except StoreError ((Nat × Nat) × LiteralPool) :=
  match p.withSection m with
  | .error e => .error e
  | .ok (classId, p) =>
    match p.store.registerString classId text with
    | .error e => .error e
    | .ok (offset, store) => .ok ((classId, offset), { p with store })

end LiteralPool

structure Plan where
  pool : LiteralPool
  /-- Code before instructions, in the order in which it was planned; likewise after. -/
  before : List (Nat × List Insn)
  after : List (Nat × List Insn)
  /-- Code in place of instructions, the latest first. -/
  replaced : List (Nat × List Insn)
  /-- The call, the argument and the code for its point, of each argument to be recorded. -/
  arguments : List (Nat × Nat × List Insn)
  /-- The local that keeps the record of a call whose result is followed. -/
  kept : List (Nat × Nat)
  /-- The locals that are null at the start. -/
  nullLocals : List Nat
  nextLocal : Nat
  maxStack : Nat
  /-- The local of the method's own call record. -/
  ownRecord : Option Nat
  /-- The local of the point of each element or field read. -/
  pointLocals : List (Nat × Nat)
  constants : List (Nat × ClassConstant)
  /-- The local of the point of each merge; none for a merge that cannot be followed. -/
  mergeLocals : List (MergeSlot × Option Nat)
  memo : TrackMemo
  deriving Repr

/-- What is planned for: the method and what its analysis found. -/
structure PlanContext where
  method : Method
  analysis : Analysis
  deriving Repr

/-- Planning may fail, and keeps what was planned before. -/
abbrev Planning := ExceptT WeaveError (StateM Plan)

namespace Plan

def start (c : PlanContext) (pool : LiteralPool) : Plan :=
  { pool, before := [], after := [], replaced := [], arguments := [], kept := [], nullLocals := []
    nextLocal := c.method.maxLocals
    maxStack := max c.method.maxStack c.analysis.maxStack
    ownRecord := none, pointLocals := [], constants := [], mergeLocals := [], memo := [] }

/-- Whether anything is to be changed. -/
def hasEdits (p : Plan) : Bool :=
  !(p.before.isEmpty && p.after.isEmpty && p.replaced.isEmpty && p.arguments.isEmpty &&
    p.kept.isEmpty)

/-- The code planned for an instruction, in the order of planning. -/
def codeAt (index : Nat) (edits : List (Nat × List Insn)) : List Insn :=
  edits.flatMap fun (i, code) => if i = index then code else []

/-! ## 1. Small steps -/

/-- The height of the stack before an instruction. -/
def stackBefore (c : PlanContext) (index : Nat) : Planning Nat :=
  match c.analysis.frame? index with
  | some f => pure f.stack.length
  | none => throw (.unsupported index .noFrame)

/-- The height of the stack after an instruction. -/
def stackAfter (c : PlanContext) (index : Nat) : Planning Nat := do
  let height ← stackBefore c index
  match c.method.insns[index]? with
  | some i => pure (height - i.pops + i.pushes)
  | none => pure height

/-- Declares at least a depth of stack. -/
def requireStack (depth : Nat) : Planning Unit :=
  modify fun p => { p with maxStack := max p.maxStack depth }

/-- A new local. -/
def newLocal : Planning Nat := do
  let p ← get
  set { p with nextLocal := p.nextLocal + 1 }
  pure p.nextLocal

/-- A new local that is null at the start. -/
def newNullLocal : Planning Nat := do
  let l ← newLocal
  modify fun p => { p with nullLocals := p.nullLocals ++ [l] }
  pure l

def insertBefore (index : Nat) (code : List Insn) : Planning Unit :=
  modify fun p => { p with before := p.before ++ [(index, code)] }

def insertAfter (index : Nat) (code : List Insn) : Planning Unit :=
  modify fun p => { p with after := p.after ++ [(index, code)] }

def replaceWith (index : Nat) (code : List Insn) : Planning Unit :=
  modify fun p => { p with replaced := (index, code) :: p.replaced }

def addArgument (index arg : Nat) (code : List Insn) : Planning Unit :=
  modify fun p => { p with arguments := p.arguments ++ [(index, arg, code)] }

/-- Whether a value can be followed, with the decisions made so far. -/
def isTrackable (c : PlanContext) (v : FlowValue) : Planning Bool := do
  let p ← get
  let (answer, memo) := c.analysis.merges.trackable v p.memo
  set { p with memo }
  pure answer

/-- The local of the method's own call record, claimed at the start. -/
def ensureStarted : Planning Nat := do
  match (← get).ownRecord with
  | some l => pure l
  | none =>
    let l ← newLocal
    modify fun p => { p with ownRecord := some l }
    requireStack 1
    pure l

/-- The place of a whole-number literal in the table of the class. -/
def trackConstant (c : PlanContext) (value : Int64) : Planning ClassConstant := do
  let p ← get
  match p.pool.constant c.method value with
  | .error e => throw (.constants e)
  | .ok (place, pool) =>
    set { p with pool }
    pure place

/-- The place of a string literal in the table of the class. -/
def trackString (c : PlanContext) (text : String) : Planning (Nat × Nat) := do
  let p ← get
  match p.pool.string c.method text with
  | .error e => throw (.constants e)
  | .ok (place, pool) =>
    set { p with pool }
    pure place

/-! ## 2. The point of a value -/

/-- Code that pushes the point of a value. -/
def loadPoint (p : Plan) (v : FlowValue) : Except WeaveError (List Insn) :=
  let missing (index : Nat) : Except WeaveError (List Insn) :=
    .error (.unsupported index .notTracked)
  match v.base with
  | .constant _ index _ =>
    match p.constants.lookup index with
    | some place => .ok [.hook (.constantPoint place)]
    | none => missing index
  | .element _ index | .field _ index _ =>
    match p.pointLocals.lookup index with
    | some l => .ok [.load l]
    | none => missing index
  | .returned _ index =>
    match p.kept.lookup index with
    | some l => .ok [.load l, .hook .invocationReturnPoint]
    | none => missing index
  | .argument _ arg =>
    match p.ownRecord with
    | some l => .ok [.load l, .hook (.invocationArgPoint arg)]
    | none => missing 0
  | .merged _ slot =>
    match p.mergeLocals.lookup slot with
    | some (some l) => .ok [.load l]
    | some none => .ok [.const .null]
    | none => missing slot.insn
  | _ => .ok [.const .null]

def pointCode (v : FlowValue) : Planning (List Insn) := do
  match loadPoint (← get) v with
  | .ok code => pure code
  | .error e => throw e

/-- A local for the point of an element or field read, filled by code before the read. -/
def ensurePointLocal (c : PlanContext) (index room : Nat) (take : List Insn) : Planning Unit := do
  if ((← get).pointLocals.lookup index).isNone then
    let l ← newNullLocal
    modify fun p => { p with pointLocals := (index, l) :: p.pointLocals }
    insertBefore index (take ++ [.store l])
    requireStack ((← stackBefore c index) + room)

/-- Puts the point of a member into the local of its merge, as soon as the member is there. -/
def stashMember (c : PlanContext) (slot : MergeSlot) (l : Nat) (member : FlowValue) :
    Planning Unit := do
  let stash := (← pointCode member) ++ [.store l]
  match member with
  | .merged _ inner =>
    requireStack ((← stackBefore c inner.insn) + 1)
    insertBefore inner.insn stash
  | _ =>
    match member.creation? with
    | none => throw (.unsupported slot.insn .noCreationSite)
    | some created =>
      requireStack ((← stackAfter c created) + 1)
      insertAfter created stash

/-- Does something for each of several values in turn. -/
def forEach (f : FlowValue → Planning Unit) : List FlowValue → Planning Unit
  | [] => pure ()
  | v :: vs => do
    f v
    forEach f vs

/-- Plans, once, whatever the point of a value needs.  At most `fuel` merges lie below each other.
-/
def ensureTrackedFrom (c : PlanContext) : Nat → FlowValue → Planning Unit
  | fuel, v =>
    match v.base with
    | .untrackable _ => pure ()
    | .constant _ index value => do
      if ((← get).constants.lookup index).isNone then
        let place ← trackConstant c value
        modify fun p => { p with constants := (index, place) :: p.constants }
    | .element _ index => ensurePointLocal c index 2 [.dup2, .hook .elementPoint]
    | .field _ index key => ensurePointLocal c index 1 [.dup, .hook (.fieldPoint key)]
    | .returned _ index => do
      if ((← get).kept.lookup index).isNone then
        let l ← newNullLocal
        modify fun p => { p with kept := (index, l) :: p.kept }
        requireStack ((← stackBefore c index) + 1)
    | .argument _ _ => do
      let _ ← ensureStarted
    | .merged t slot => do
      if ((← get).mergeLocals.lookup slot).isSome then pure ()
      else if !(← isTrackable c (.merged t slot)) then
        modify fun p => { p with mergeLocals := (slot, none) :: p.mergeLocals }
      else match fuel with
        | 0 => throw (.unsupported slot.insn .notTracked)
        | fuel + 1 => do
          let l ← newNullLocal
          modify fun p => { p with mergeLocals := (slot, some l) :: p.mergeLocals }
          forEach (fun member => do
            ensureTrackedFrom c fuel member
            stashMember c slot l member) (c.analysis.merges.members slot)
    | _ => pure ()

/-- Plans, once, whatever the point of a value needs. -/
def ensureTracked (c : PlanContext) (v : FlowValue) : Planning Unit :=
  ensureTrackedFrom c (c.analysis.merges.size + 1) v

/-- Code that pushes the point of a value, or null if the value cannot be followed. -/
def pointOrNull (c : PlanContext) (v : FlowValue) : Planning (List Insn) := do
  if ← isTrackable c v then
    ensureTracked c v
    pointCode v
  else pure [.const .null]

/-! ## 3. Store sites -/

/-- Records the arguments of a call from the given one on; tells whether there was any. -/
def recordArguments (c : PlanContext) (index arg : Nat) : List (Option FlowValue) → Planning Bool
  | [] => pure false
  | none :: rest => recordArguments c index (arg + 1) rest
  | some v :: rest => do
    if ← isTrackable c v then
      ensureTracked c v
      addArgument index arg (← pointCode v)
      let _ ← recordArguments c index (arg + 1) rest
      pure true
    else recordArguments c index (arg + 1) rest

/-- The mask of a concatenation and the code for the points of its marked operands. -/
def concatPoints (c : PlanContext) : List Ty → List FlowValue → Planning (List Char × List Insn)
  | t :: ts, v :: vs => do
    let tracked ← if t = .char then isTrackable c v else pure false
    if tracked then
      ensureTracked c v
      let code ← pointCode v
      let (mask, loads) ← concatPoints c ts vs
      pure ('T' :: mask, code ++ loads)
    else
      let (mask, loads) ← concatPoints c ts vs
      pure ('.' :: mask, loads)
  | _, _ => pure ([], [])

/-- Plans the code of one site. -/
def planSite (c : PlanContext) (site : Site) : Planning Unit := do
  let index := site.insn
  match site.action with
  | .arrayStore elem v =>
    let code ← pointOrNull c v
    requireStack ((← stackBefore c index) + 1)
    replaceWith index (code ++ [.hook (.arrayStoreWithPoint elem)])
  | .fieldStore key v =>
    let code ← pointOrNull c v
    requireStack ((← stackBefore c index) + 2)
    insertBefore index ([.dup2, .pop] ++ code ++ [.hook (.setFieldPoint key)])
  | .callArguments args =>
    if ← recordArguments c index 0 args then
      requireStack ((← stackBefore c index) + 2)
  | .returnValue v =>
    if ← isTrackable c v then
      ensureTracked c v
      let l ← ensureStarted
      let code ← pointCode v
      requireStack ((← stackBefore c index) + 2)
      insertBefore index (.load l :: code ++ [.hook .invocationReturning])
  | .concat args values =>
    let (mask, loads) ← concatPoints c args values
    let points := mask.count 'T'
    if 0 < points then
      requireStack ((← stackBefore c index) + points)
      replaceWith index (loads ++ [.hook (.concatWithPoints args (String.ofList mask))])
  | .stringComparison equal target =>
    let cond := if equal then Cond.ne else Cond.eq
    replaceWith index [.hook .stringEquals, .ifZero cond target]
  | .stringLiteral text =>
    let (classId, offset) ← trackString c text
    insertAfter index [.hook (.constantString classId offset)]
  | .arrayCopy => replaceWith index [.hook .arrayCopy]
  | .arrayClone => replaceWith index [.hook .arrayClone]

def planSites (c : PlanContext) : List Site → Planning Unit
  | [] => pure ()
  | s :: ss => do
    planSite c s
    planSites c ss

/-! ## 4. The woven body -/

/-- The code that gives a call its record. -/
def recordCode (p : Plan) (index : Nat) (i : Insn) : List Insn :=
  let args := p.arguments.filter fun e => e.1 = index
  let keep := p.kept.lookup index
  if args.isEmpty && keep.isNone then []
  else
    let create := match i with
      | .invoke m => [.hook (.invocationCreate m.signature)]
      | _ => []
    let set := args.flatMap fun (_, arg, code) => code ++ [.hook (.invocationSetArg arg)]
    let put := match keep with
      | some l => .store l
      | none => .pop
    create ++ set ++ [.hook .invocationCalling, put]

/-- Code before the first instruction: the new locals become null, and the method claims its
call record. -/
def prologue (p : Plan) (m : Method) : List Insn :=
  p.nullLocals.flatMap (fun l => [.const .null, .store l]) ++
    match p.ownRecord with
    | some l => [.hook (.invocationStart m.signature), .store l]
    | none => []

/-- One instruction with the code around it.  Code at a label stands behind it, so that it runs
on every way there. -/
def block (p : Plan) (index : Nat) (i : Insn) : List Insn :=
  let ahead := codeAt index p.before ++ recordCode p index i
  let behind := codeAt index p.after
  match i with
  | .label _ => i :: ahead ++ behind
  | _ => ahead ++ (p.replaced.lookup index).getD [i] ++ behind

/-- The blocks of instructions, from the given index on. -/
def blocks (p : Plan) (index : Nat) : List Insn → List Insn
  | [] => []
  | i :: rest => p.block index i ++ p.blocks (index + 1) rest

/-- The greatest depth of stack that can be declared. -/
def depthLimit : Nat := 65535

/-- The method with everything planned put in. -/
def woven (p : Plan) (m : Method) : Method :=
  let depth := if p.nullLocals.isEmpty then p.maxStack else max p.maxStack 1
  { m with
    maxLocals := p.nextLocal
    maxStack := min depth depthLimit
    insns := p.prologue m ++ p.blocks 0 m.insns }

end Plan

end Provenance
