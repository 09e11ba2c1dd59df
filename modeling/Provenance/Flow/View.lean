/-
# Analyses in JSON

What an analysis found out, for whoever wants to look at it: a flow value is a list of its kind
and what belongs to it, a frame lists its values with the deepest operand first and tells of each
whether it is trackable.
-/
import Provenance.Code.Stored
import Provenance.Flow.Carrier
import Provenance.Flow.Solver
import Provenance.Store.View

namespace Provenance

/-- An error as callers are told of it; what makes a configuration unreadable is not said. -/
def WeaveError.encode : WeaveError → Json
  | .invalidConfig .unreadable => .object [("error", .text "InvalidConfig")]
  | e => .ofError e.kind e.message

def MergeSlot.encode (s : MergeSlot) : Json :=
  let kind := match s.kind with
    | .variable => "local"
    | .operand => "stack"
  .list [.nat s.insn, .text kind, .nat s.index]

def MergeSlot.decode? : Json → Option MergeSlot
  | .list [insn, .text kind, index] => do
    let kind ← match kind with
      | "local" => some SlotKind.variable
      | "stack" => some SlotKind.operand
      | _ => none
    some ⟨← insn.asNat? placeBound, kind, ← index.asNat? placeBound⟩
  | _ => none

namespace FlowValue

def encode : FlowValue → Json
  | .untrackable t => .list [.text "untrackable", .ofOption Ty.encode t]
  | .constant t i n => .list [.text "const", t.encode, .nat i, .int n.toInt]
  | .element t i => .list [.text "elem", t.encode, .nat i]
  | .field t i key => .list [.text "field", t.encode, .nat i, .text key]
  | .returned t i => .list [.text "ret", t.encode, .nat i]
  | .argument t n => .list [.text "arg", t.encode, .nat n]
  | .cast t i v => .list [.text "cast", t.encode, .nat i, v.encode]
  | .copy i v => .list [.text "copy", .nat i, v.encode]
  | .merged t s => .list [.text "merged", t.encode, s.encode]

def decode? : Json → Option FlowValue
  | .list [.text "untrackable", .null] => some (.untrackable none)
  | .list [.text "untrackable", t] => do some (.untrackable (some (← Ty.decode? t)))
  | .list [.text "const", t, i, n] => do
    some
      (.constant (← Ty.decode? t) (← i.asNat? placeBound) (.ofInt (← n.asInt? Numeral.longBound)))
  | .list [.text "elem", t, i] => do some (.element (← Ty.decode? t) (← i.asNat? placeBound))
  | .list [.text "field", t, i, .text key] => do
    some (.field (← Ty.decode? t) (← i.asNat? placeBound) key)
  | .list [.text "ret", t, i] => do some (.returned (← Ty.decode? t) (← i.asNat? placeBound))
  | .list [.text "arg", t, n] => do some (.argument (← Ty.decode? t) (← n.asNat? placeBound))
  | .list [.text "cast", t, i, v] => do
    some (.cast (← Ty.decode? t) (← i.asNat? placeBound) (← decode? v))
  | .list [.text "copy", i, v] => do some (.copy (← i.asNat? placeBound) (← decode? v))
  | .list [.text "merged", t, s] => do some (.merged (← Ty.decode? t) (← MergeSlot.decode? s))
  | _ => none

def facts (v : FlowValue) : List (String × Json) :=
  [("type", .ofOption Ty.encode v.ty?), ("creation_insn", .ofOption .nat v.creation?),
    ("may_be_trackable", .bool v.mayBeTrackable), ("unwrapped", v.unmoved.encode),
    ("constant", .ofOption (fun n => .int n.toInt) v.literal?), ("is_string", .bool v.isString)]

end FlowValue

/-- What is followed through a field. -/
def FieldRef.facts (f : FieldRef) : Json :=
  .object [("track_field", .bool (Carrier.carriesField f)), ("field_id", .text f.key)]

/-- What is followed through a call. -/
def MethodRef.facts (m : MethodRef) : Json :=
  let args := Carrier.carriedArguments? m.name m.desc
  .object [("call_return", .bool (Carrier.carriesResult m.owner m.name m.desc)),
    ("args", .ofOption (fun marks => .list (marks.map .bool)) args),
    ("pass_through", .bool (Carrier.isPassThrough m)),
    ("array_copy", .bool (Carrier.isArrayCopy m)),
    ("cloned_array", .ofOption Ty.encode (Carrier.clonedArray? m)),
    ("keeps_identity", .bool (Carrier.keepsIdentity m.owner)),
    ("char_at", .bool (Carrier.isCharAt m)), ("signature", .text m.signature),
    ("operands", .nat m.operandCount), ("receiver", .bool m.hasReceiver)]

/-- The positions of the given labels. -/
def Method.encodeLabels (m : Method) (labels : List Nat) : Json :=
  .object (labels.map fun l => (toString l, .ofOption .nat (m.labelAt? l)))

/-- The positions of all labels, unless one stands there twice. -/
def Method.labelTable (m : Method) : Json :=
  match m.repeatedLabel? with
  | some (index, label) => (WeaveError.duplicateLabel index label).encode
  | none => m.encodeLabels (m.insns.filterMap Insn.label?)

def FlowGraph.facts (g : FlowGraph) : List (String × Json) :=
  let indices := List.range g.size
  let nats (ns : List Nat) : Json := .list (ns.map .nat)
  [("successors", .list (g.successors.map nats)),
    ("predecessors", .list (indices.map fun i => nats (g.predecessors i))),
    ("reachable", .list (indices.map fun i => .bool (g.isReachable i))),
    ("joins", nats (indices.filter g.isJoin)), ("join_past_end", .bool (g.isJoin g.size))]

def MergeIndex.encode (x : MergeIndex) : Json :=
  .list (x.sorted.map fun (slot, vs) => .list [slot.encode, .list (vs.map FlowValue.encode)])

/-- The values of a frame, each with whether it is trackable. -/
def Frame.encode (x : MergeIndex) (f : Frame) : Json :=
  let value (v : FlowValue) : Json := .list [v.encode, .bool (x.isTrackable v)]
  .object [("locals", .list (f.locals.map value)), ("stack", .list (f.stack.reverse.map value))]

def Analysis.encode (a : Analysis) : Json :=
  .object [("frames", .list (a.frames.map fun f => .ofOption (Frame.encode a.merges) f)),
    ("merges", a.merges.encode), ("max_stack", .nat a.maxStack), ("iterations", .nat a.iterations)]

end Provenance
