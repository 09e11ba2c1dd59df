/-
# Reading what the commands need
-/
import Provenance.Code.Stored
import Provenance.Machine.Settings
import Provenance.Tool.Logged
import Provenance.Weave.Settings

namespace Provenance

/-- The variables of the environment that commands look at. -/
def environmentNames : List String :=
  ["FLOWTRACK_FILTER", "FLOWTRACK_BREAK_STRING_INTERNING", "FLOWTRACK_MAX_ITERATIONS",
    "FLOWTRACK_SOLVER_ORDER", "FLOWTRACK_PURGE_INTERVAL", "FLOWTRACK_MAX_RESOLVE_DEPTH",
    "FLOWTRACK_MAX_CALL_DEPTH", "FLOWTRACK_MAX_INSTRUCTIONS"]

/-- What a command can see: the files that can be read, by path, and the environment. -/
structure Surroundings where
  file : String → Option String
  environment : Environment

namespace Surroundings

/-! ## 1. Files -/

def read (s : Surroundings) (path : String) : Except ToolError String :=
  match s.file path with
  | some text => .ok text
  | none => .error (.io ("cannot read " ++ path))

/-- The class in a file. -/
def loadClass (s : Surroundings) (path : String) : Except ToolError Class :=
  match s.read path with
  | .error e => .error e
  | .ok text =>
    match (Json.parse? text).bind Class.decode? with
    | some c => .ok c
    | none => .error (.json "no class")

/-- The settings of the weaver in a file. -/
def readSettings (s : Surroundings) (path : String) : Except ToolError WeaveSettings :=
  match s.read path with
  | .error e => .error e
  | .ok text =>
    match WeaveSettings.parse text with
    | .ok settings => .ok settings
    | .error e => .error (.weave e)

/-! ## 2. The environment -/

/-- The settings of the weaver in the environment. -/
def weaveSettings (s : Surroundings) : Logged WeaveSettings := do
  .tell (Notice.ofVariable s.environment
    (fun t => (Numeral.positive? Numeral.wordBound t).isSome) "FLOWTRACK_MAX_ITERATIONS")
  .tell (Notice.ofVariable s.environment
    (fun t => (SolverOrder.parse t).toOption.isSome) "FLOWTRACK_SOLVER_ORDER")
  return .ofEnvironment s.environment

/-- The settings of the store in the environment. -/
def storeSettings (s : Surroundings) : Logged StoreSettings := do
  let usable (text : String) : Bool := (Numeral.nat? Numeral.wordBound text).isSome
  .tell (Notice.ofVariable s.environment usable "FLOWTRACK_PURGE_INTERVAL")
  .tell (Notice.ofVariable s.environment usable "FLOWTRACK_MAX_RESOLVE_DEPTH")
  return .ofEnvironment s.environment

/-- The settings of the machine in the environment. -/
def machineSettings (s : Surroundings) : Logged MachineSettings := do
  let usable (text : String) : Bool := (Numeral.positive? Numeral.wordBound text).isSome
  .tell (Notice.ofVariable s.environment usable "FLOWTRACK_MAX_CALL_DEPTH")
  .tell (Notice.ofVariable s.environment usable "FLOWTRACK_MAX_INSTRUCTIONS")
  return .ofEnvironment s.environment

/-- The settings of the weaver in a file, or those of the environment if none is named. -/
def loadSettings (s : Surroundings) : Option String → Logged WeaveSettings
  | none => s.weaveSettings
  | some path => .quiet (s.readSettings path)

end Surroundings

/-- What a command wants done once it has succeeded; the file comes first, and if it cannot be
written nothing is printed. -/
structure Effects where
  /-- A path and the text to write there. -/
  file : Option (String × String)
  output : String
  /-- Lines for the error stream. -/
  complaints : List String
  deriving DecidableEq, Repr

/-- What there is to tell once the file is written. -/
def Effects.notices (e : Effects) : List Notice :=
  match e.file with
  | some (path, _) => [.classWritten path]
  | none => []

end Provenance
