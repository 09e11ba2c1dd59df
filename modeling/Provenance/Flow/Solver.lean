/-
# The frames of a method

Starting from the first frame, instructions are visited until no frame changes any more.  A visit
computes the frame after the instruction and merges it into the frame of each successor; a
successor whose frame changed is to be visited again.  The instructions waiting for a visit form
a list without repetition, of which the first or the last is taken.

`Solver.visit` is one visit and `Solver.run` repeats it, at most as often as allowed.
-/
import Provenance.Flow.Frame
import Provenance.Flow.Graph
import Provenance.Flow.Merge

namespace Provenance

/-- Which of the waiting instructions is visited next. -/
inductive SolverOrder where
  | fifo
  | lifo
  deriving DecidableEq, Repr, Inhabited

def SolverOrder.name : SolverOrder → String
  | fifo => "fifo"
  | lifo => "lifo"

def SolverOrder.all : List SolverOrder := [fifo, lifo]

/-- The order of a name, in any mixture of cases. -/
def SolverOrder.parse (name : String) : Except WeaveError SolverOrder :=
  let lower := String.ofList (name.toList.map Char.toLower)
  match SolverOrder.all.find? fun o => o.name == lower with
  | some o => .ok o
  | none => .error (.invalidConfig (.unknownOrder lower))

/-- Frames and merges found so far, and the instructions waiting for a visit. -/
structure Solver where
  /-- The frame before each instruction, if any way leads there. -/
  frames : List (Option Frame)
  merges : MergeIndex
  waiting : List Nat
  /-- The greatest stack before or after any visited instruction. -/
  maxStack : Nat
  iterations : Nat
  deriving DecidableEq, Repr

namespace Solver

/-- Takes the next of the waiting instructions. -/
def take? (order : SolverOrder) (waiting : List Nat) : Option (Nat × List Nat) :=
  match order with
  | .fifo =>
    match waiting with
    | [] => none
    | i :: rest => some (i, rest)
  | .lifo =>
    match waiting.getLast? with
    | none => none
    | some i => some (i, waiting.dropLast)

/-- Merges the values that arrive in slots of one kind, from the given index on. -/
def mergeSlots (insn : Nat) (kind : SlotKind) (index : Nat) (x : MergeIndex) :
    List FlowValue → List FlowValue → List FlowValue × MergeIndex
  | v :: vs, w :: ws =>
    let (m, x) := x.merge ⟨insn, kind, index⟩ v w
    let (ms, x) := mergeSlots insn kind (index + 1) x vs ws
    (m :: ms, x)
  | vs, _ => (vs, x)

/-- Merges the frame that arrives at an instruction into the one it has. -/
def mergeFrames (insn : Nat) (x : MergeIndex) (known arriving : Frame) :
    Except WeaveError (Frame × MergeIndex) :=
  if known.stack.length ≠ arriving.stack.length then
    .error (.stackHeightMismatch insn known.stack.length arriving.stack.length)
  else
    let (locals, x) := mergeSlots insn .variable 0 x known.locals arriving.locals
    let (stack, x) := mergeSlots insn .operand 0 x known.stack.reverse arriving.stack.reverse
    .ok (⟨locals, stack.reverse⟩, x)

/-- Puts an instruction among the waiting ones. -/
def enqueue (waiting : List Nat) (index : Nat) : List Nat :=
  if waiting.contains index then waiting else waiting ++ [index]

/-- Carries a frame over an edge. -/
def arrive (s : Solver) (out : Frame) (target : Nat) : Except WeaveError Solver :=
  match (s.frames[target]?).join with
  | none =>
    .ok { s with frames := s.frames.set target (some out), waiting := enqueue s.waiting target }
  | some known =>
    match mergeFrames target s.merges known out with
    | .error e => .error e
    | .ok (merged, merges) =>
      if merged = known then .ok { s with merges }
      else .ok { s with
        merges
        frames := s.frames.set target (some merged)
        waiting := enqueue s.waiting target }

/-- Carries a frame over several edges. -/
def arriveAll (s : Solver) (out : Frame) : List Nat → Except WeaveError Solver
  | [] => .ok s
  | target :: rest =>
    match s.arrive out target with
    | .error e => .error e
    | .ok s => s.arriveAll out rest

/-- Visits an instruction that was taken from the waiting ones. -/
def visit (m : Method) (g : FlowGraph) (s : Solver) (index : Nat) : Except WeaveError Solver :=
  let s := { s with iterations := s.iterations + 1 }
  match m.insns[index]?, (s.frames[index]?).join with
  | some i, some frame =>
    match frame.after index i with
    | .error e => .error e
    | .ok out =>
      let height := frame.stack.length
      let s := { s with maxStack := max (max s.maxStack height) (height - i.pops + i.pushes) }
      s.arriveAll out (FlowGraph.next g.successors index)
  | _, _ => .ok s

/-- Visits until nothing waits, at most `fuel` times of the `limit` allowed. -/
def run (m : Method) (g : FlowGraph) (order : SolverOrder) (limit : Nat) :
    Nat → Solver → Except WeaveError Solver
  | 0, s => if s.waiting.isEmpty then .ok s else .error (.noConvergence limit)
  | fuel + 1, s =>
    match take? order s.waiting with
    | none => .ok s
    | some (index, waiting) =>
      match visit m g { s with waiting } index with
      | .error e => .error e
      | .ok s => run m g order limit fuel s

/-- Nothing but the first frame, with the first instruction waiting. -/
def start (m : Method) (frame : Frame) : Solver :=
  { frames := (List.replicate m.insns.length none).set 0 (some frame)
    merges := .empty
    waiting := [0]
    maxStack := 0
    iterations := 0 }

end Solver

/-- What the analysis of a method found. -/
structure Analysis where
  graph : FlowGraph
  /-- The frame before each instruction, if it can be reached. -/
  frames : List (Option Frame)
  merges : MergeIndex
  maxStack : Nat
  iterations : Nat
  deriving DecidableEq, Repr

namespace Analysis

/-- How many visits are allowed if nothing else is said. -/
def defaultLimit : Nat := 100000

/-- Finds the frames of a method. -/
def ofMethod (order : SolverOrder) (limit : Nat) (m : Method) : Except WeaveError Analysis :=
  match FlowGraph.ofMethod m with
  | .error e => .error e
  | .ok graph =>
    match Frame.entry m with
    | .error e => .error e
    | .ok frame =>
      match Solver.run m graph order limit limit (Solver.start m frame) with
      | .error e => .error e
      | .ok s => .ok ⟨graph, s.frames, s.merges, s.maxStack, s.iterations⟩

/-- The frame before an instruction. -/
def frame? (a : Analysis) (index : Nat) : Option Frame := (a.frames[index]?).join

end Analysis

end Provenance
