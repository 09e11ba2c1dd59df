/-
# Store sites

A store site is an instruction at which a value leaves the frame of its method, or at which a
string or an array comes into being that should know where its elements came from.  Sites are
only looked for in code that can be reached.
-/
import Provenance.Flow.Solver

namespace Provenance

inductive SiteKind where
  | arrayClone
  | arrayCopy
  | arrayStore
  | callArguments
  | concat
  | fieldStore
  | returnValue
  | stringComparison
  | stringLiteral
  deriving DecidableEq, Repr

namespace SiteKind

def name : SiteKind → String
  | arrayClone => "array_clone"
  | arrayCopy => "array_copy"
  | arrayStore => "array_store"
  | callArguments => "call_arguments"
  | concat => "concat"
  | fieldStore => "field_store"
  | returnValue => "return_value"
  | stringComparison => "string_comparison"
  | stringLiteral => "string_literal"

/-- All kinds in the order of their names. -/
def all : List SiteKind :=
  [arrayClone, arrayCopy, arrayStore, callArguments, concat, fieldStore, returnValue,
   stringComparison, stringLiteral]

end SiteKind

/-- What is stored at a site. -/
inductive SiteAction where
  /-- An element is written into an array. -/
  | arrayStore (elem : Ty) (value : FlowValue)
  /-- A field that carries provenance is written. -/
  | fieldStore (key : String) (value : FlowValue)
  /-- The arguments of a call; nothing for one whose point is not recorded. -/
  | callArguments (args : List (Option FlowValue))
  /-- The result of a method whose callers follow it. -/
  | returnValue (value : FlowValue)
  /-- A concatenation with characters among its operands. -/
  | concat (args : List Ty) (values : List FlowValue)
  /-- Strings are compared by identity. -/
  | stringComparison (equal : Bool) (target : Nat)
  /-- A string literal that becomes an instance of its own. -/
  | stringLiteral (text : String)
  | arrayCopy
  | arrayClone
  deriving DecidableEq, Repr

def SiteAction.kind : SiteAction → SiteKind
  | arrayStore _ _ => .arrayStore
  | fieldStore _ _ => .fieldStore
  | callArguments _ => .callArguments
  | returnValue _ => .returnValue
  | concat _ _ => .concat
  | stringComparison _ _ => .stringComparison
  | stringLiteral _ => .stringLiteral
  | arrayCopy => .arrayCopy
  | arrayClone => .arrayClone

/-- An action at an instruction. -/
structure Site where
  insn : Nat
  action : SiteAction
  deriving DecidableEq, Repr

namespace Site

/-- Whether a bulk copy goes between arrays of one type whose elements are followed scalars. -/
def copiesTracked (source target : FlowValue) : Bool :=
  match source.ty?, target.ty? with
  | some (.array a), some (.array b) => a = b && a.isTrackedScalar
  | _, _ => false

/-- The arguments of a call whose points are recorded, read off the stack. -/
def recordedArguments (f : Frame) (carried : List Bool) : List (Option FlowValue) :=
  let count := carried.length
  carried.mapIdx fun arg marked => if marked then some (f.top (count - 1 - arg)) else none

/-- What is stored by an instruction before which a frame holds. -/
def action? (m : Method) (breakInterning : Bool) (f : Frame) : Insn → Option SiteAction
  | .arrayStore elem => if elem.isTrackedElement then some (.arrayStore elem (f.top 0)) else none
  | .putField fd => if Carrier.carriesField fd then some (.fieldStore fd.key (f.top 0)) else none
  | .invoke target =>
    if Carrier.isArrayCopy target then
      if copiesTracked (f.top 4) (f.top 2) then some .arrayCopy else none
    else if (Carrier.clonedArray? target).isSome then some .arrayClone
    else if Carrier.isPassThrough target then none
    else (Carrier.carriedArguments? target.name target.desc).map fun carried =>
      .callArguments (recordedArguments f carried)
  | .ret t =>
    if Carrier.carriesResult m.owner m.name m.desc && t ≠ .void then some (.returnValue (f.top 0))
    else none
  | .concat args =>
    if args.contains .char then
      some (.concat args ((List.range args.length).reverse.map f.top))
    else none
  | .ifRefEq target =>
    if !Carrier.keepsIdentity m.owner && ((f.top 0).isString || (f.top 1).isString) then
      some (.stringComparison true target)
    else none
  | .ifRefNe target =>
    if !Carrier.keepsIdentity m.owner && ((f.top 0).isString || (f.top 1).isString) then
      some (.stringComparison false target)
    else none
  | .const (.str text) => if breakInterning then some (.stringLiteral text) else none
  | _ => none

/-- The sites among instructions, from the given index on. -/
def among (m : Method) (a : Analysis) (breakInterning : Bool) (index : Nat) : List Insn → List Site
  | [] => []
  | i :: rest =>
    let later := among m a breakInterning (index + 1) rest
    match a.frame? index with
    | none => later
    | some f =>
      match action? m breakInterning f i with
      | none => later
      | some action => ⟨index, action⟩ :: later

/-- All sites of a method, in the order of its instructions. -/
def find (m : Method) (a : Analysis) (breakInterning : Bool) : List Site :=
  among m a breakInterning 0 m.insns

end Site

end Provenance
