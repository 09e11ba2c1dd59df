/-
# Stack heights

Each instruction that can be reached has one height of the stack before it, whichever way leads
there.  `stackHeights` finds them and refuses a method that has none: one that takes more than
there is, that comes to a place with two different heights, or that names a local out of range.
The greatest height before or after any instruction is what the method needs.
-/
import Provenance.Flow.Graph

namespace Provenance

/-- Heights found so far, the instructions to be looked at, and the greatest height. -/
structure HeightSearch where
  heights : List (Option Nat)
  queue : List Nat
  deepest : Nat
  deriving DecidableEq, Repr

namespace HeightSearch

/-- Carries a height over an edge. -/
def arrive (s : HeightSearch) (height target : Nat) : Except WeaveError HeightSearch :=
  match (s.heights[target]?).join with
  | none => .ok { s with heights := s.heights.set target (some height), queue :=
      s.queue ++ [target] }
  | some known =>
    if known = height then .ok s else .error (.stackHeightMismatch target known height)

/-- Carries a height over several edges. -/
def arriveAll (s : HeightSearch) (height : Nat) : List Nat → Except WeaveError HeightSearch
  | [] => .ok s
  | target :: rest =>
    match s.arrive height target with
    | .error e => .error e
    | .ok s => s.arriveAll height rest

/-- The height after an instruction, if it may stand at a height. -/
def heightAfter (m : Method) (index : Nat) (i : Insn) (height : Nat) : Except WeaveError Nat :=
  match i.local? with
  | some l =>
    if m.maxLocals ≤ l then .error (.invalidLocal index l m.maxLocals)
    else if height < i.pops then .error (.stackUnderflow index)
    else .ok (height - i.pops + i.pushes)
  | none =>
    if height < i.pops then .error (.stackUnderflow index)
    else .ok (height - i.pops + i.pushes)

/-- Looks at one instruction. -/
def visit (m : Method) (g : FlowGraph) (s : HeightSearch) (index : Nat) :
    Except WeaveError HeightSearch :=
  match m.insns[index]? with
  | none => .ok s
  | some i =>
    let height := ((s.heights[index]?).join).getD 0
    match heightAfter m index i height with
    | .error e => .error e
    | .ok after =>
      { s with deepest := max (max s.deepest height) after }.arriveAll after
        (FlowGraph.next g.successors index)

/-- Looks at the queue until it is empty; every instruction enters it once. -/
def run (m : Method) (g : FlowGraph) : Nat → HeightSearch → Except WeaveError HeightSearch
  | 0, s => .ok s
  | fuel + 1, s =>
    match s.queue with
    | [] => .ok s
    | index :: queue =>
      match visit m g { s with queue } index with
      | .error e => .error e
      | .ok s => run m g fuel s

end HeightSearch

/-- The height before each instruction that can be reached, and the greatest of all. -/
def stackHeights (m : Method) : Except WeaveError (List (Option Nat) × Nat) :=
  match FlowGraph.ofMethod m with
  | .error e => .error e
  | .ok g =>
    let start := (List.replicate m.insns.length none).set 0 (some 0)
    match HeightSearch.run m g m.insns.length ⟨start, [0], 0⟩ with
    | .error e => .error e
    | .ok s => .ok (s.heights, s.deepest)

/-- The depth of stack that a method needs. -/
def requiredStack (m : Method) : Except WeaveError Nat :=
  match stackHeights m with
  | .error e => .error e
  | .ok (_, deepest) => .ok deepest

end Provenance
