/-
# Settings of the weaver
-/
import Provenance.Code.Stored
import Provenance.Flow.Solver
import Provenance.Json.Reader
import Provenance.Store.Settings
import Provenance.Weave.Filter

namespace Provenance

structure WeaveSettings where
  /-- Rules for the classes to weave. -/
  filter : String
  /-- Rules for the classes whose string literals become instances of their own. -/
  breakStringInterning : String
  /-- How many visits the analysis of a method may take. -/
  maxIterations : Nat
  order : SolverOrder
  deriving DecidableEq, Repr

namespace WeaveSettings

def defaultRules : String := "%recommended,+*"

def default : WeaveSettings := ⟨defaultRules, defaultRules, Analysis.defaultLimit, .fifo⟩

instance : Inhabited WeaveSettings := ⟨default⟩

/-- The settings of an environment; a count that is none or zero and an unknown order are passed
over. -/
def ofEnvironment (env : Environment) : WeaveSettings :=
  { filter := (env "FLOWTRACK_FILTER").getD default.filter
    breakStringInterning :=
      (env "FLOWTRACK_BREAK_STRING_INTERNING").getD default.breakStringInterning
    maxIterations :=
      ((env "FLOWTRACK_MAX_ITERATIONS").bind (Numeral.positive? Numeral.wordBound)).getD
        default.maxIterations
    order :=
      ((env "FLOWTRACK_SOLVER_ORDER").bind fun t => (SolverOrder.parse t).toOption).getD
        default.order }

/-- Settings that a weaver can be made of. -/
def validate (s : WeaveSettings) : Except WeaveError Unit :=
  match ClassFilter.parse s.filter with
  | .error e => .error e
  | .ok _ =>
    match ClassFilter.parse s.breakStringInterning with
    | .error e => .error e
    | .ok _ => if s.maxIterations = 0 then .error (.invalidConfig .noIterations) else .ok ()

def SolverOrder.decode? : Json → Option SolverOrder := decodeNamed? SolverOrder.all SolverOrder.name

/-- The settings of a record; a missing field has its default. -/
def decode? (j : Json) : Option WeaveSettings := do
  match ← j.record? ["filter", "break_string_interning", "max_iterations", "solver_order"] with
  | [filter, interning, iterations, order] =>
    some ⟨← orElse? default.filter Json.asText? filter,
      ← orElse? default.breakStringInterning Json.asText? interning,
      ← orElse? default.maxIterations (Json.asNat? Numeral.wordBound) iterations,
      ← orElse? default.order SolverOrder.decode? order⟩
  | _ => none

/-- The settings that a text holds, if they are valid. -/
def parse (text : String) : Except WeaveError WeaveSettings :=
  match (Json.parse? text).bind decode? with
  | none => .error (.invalidConfig .unreadable)
  | some s =>
    match s.validate with
    | .error e => .error e
    | .ok () => .ok s

def encode (s : WeaveSettings) : Json :=
  .object [("filter", .text s.filter), ("break_string_interning", .text s.breakStringInterning),
    ("max_iterations", .nat s.maxIterations), ("solver_order", .text s.order.name)]

end WeaveSettings

end Provenance
