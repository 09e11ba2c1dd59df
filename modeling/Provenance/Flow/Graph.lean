/-
# Where execution may go next

The flow graph of a method has an edge from each instruction to the position of the label it may
jump to and, if it falls through, to the next instruction.  A method has a graph if its body is
not empty, its labels are unique, every jump names one of them, and no instruction that can be
reached falls through past the end.
-/
import Provenance.Code.Method
import Provenance.Flow.Error

namespace Provenance

structure FlowGraph where
  /-- The successors of each instruction, the jump target first. -/
  successors : List (List Nat)
  /-- The instructions that can be reached from the first. -/
  reached : List Nat
  deriving DecidableEq, Repr

namespace FlowGraph

/-- The successors of one instruction. -/
def successorsOf (m : Method) (index : Nat) (i : Insn) : Except WeaveError (List Nat) :=
  let following := if i.fallsThrough ∧ index + 1 < m.insns.length then [index + 1] else []
  match i.jumpTarget? with
  | none => .ok following
  | some l =>
    match m.labelAt? l with
    | none => .error (.unknownLabel index l)
    | some target => .ok (target :: following.filter (· ≠ target))

/-- The successors of all instructions, from the given index on. -/
def edgesFrom (m : Method) (index : Nat) : List Insn → Except WeaveError (List (List Nat))
  | [] => .ok []
  | i :: rest =>
    match successorsOf m index i with
    | .error e => .error e
    | .ok here =>
      match edgesFrom m (index + 1) rest with
      | .error e => .error e
      | .ok later => .ok (here :: later)

/-- The successors of an index. -/
def next (successors : List (List Nat)) (index : Nat) : List Nat := (successors[index]?).getD []

/-- Goes through the instructions that can be reached, breadth first.  Every index enters the
queue once, so as many steps as there are instructions are enough. -/
def explore (successors : List (List Nat)) : Nat → List Nat → List Nat → List Nat
  | 0, _, seen => seen
  | _ + 1, [], seen => seen
  | fuel + 1, index :: queue, seen =>
    let fresh := (next successors index).filter fun j => !seen.contains j
    explore successors fuel (queue ++ fresh) (seen ++ fresh)

/-- Whether the body ends in an instruction that falls through. -/
def openEnd (m : Method) : Bool :=
  match m.insns.getLast? with
  | some i => i.fallsThrough
  | none => false

/-- The flow graph of a method. -/
def ofMethod (m : Method) : Except WeaveError FlowGraph :=
  if m.insns.isEmpty then .error (.fallsOffEnd 0)
  else match m.repeatedLabel? with
    | some (index, l) => .error (.duplicateLabel index l)
    | none =>
      match edgesFrom m 0 m.insns with
      | .error e => .error e
      | .ok successors =>
        let reached := explore successors m.insns.length [0] [0]
        let last := m.insns.length - 1
        if openEnd m && reached.contains last then .error (.fallsOffEnd last)
        else .ok ⟨successors, reached⟩

def size (g : FlowGraph) : Nat := g.successors.length

def isReachable (g : FlowGraph) (index : Nat) : Bool := g.reached.contains index

/-- The instructions that an index may follow, in ascending order. -/
def predecessors (g : FlowGraph) (index : Nat) : List Nat :=
  (List.range g.size).filter fun i => (next g.successors i).contains index

/-- Whether more than one way leads to an index; entering the method is one way. -/
def isJoin (g : FlowGraph) (index : Nat) : Bool :=
  index < g.size && 1 < (g.predecessors index).length + (if index = 0 then 1 else 0)

end FlowGraph

end Provenance
