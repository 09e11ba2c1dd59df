/-
# The command that weaves a class
-/
import Provenance.Code.Listing
import Provenance.Json.Printer
import Provenance.Tool.Files
import Provenance.Tool.Options
import Provenance.Weave.Weaver

namespace Provenance.Tool

/-! ## 1. Weaving -/

/-- What there is to tell about a method and what came of weaving it. -/
def methodNotices (w : Weaver) (className : String) (m : Method) :
    Except WeaveError (Option (Method × List SiteKind)) → List Notice
  | .error e => [.leftAlone className m e]
  | .ok none => []
  | .ok (some (woven, kinds)) =>
    let iterations := match Analysis.ofMethod w.settings.order w.settings.maxIterations m with
      | .ok analysis => analysis.iterations
      | .error _ => 0
    [.methodWoven m woven kinds.length iterations]

/-- What there is to tell about methods that are woven one after the other. -/
def methodsNotices (w : Weaver) (className : String) (breakInterning : Bool) (pool : LiteralPool) :
    List Method → List Notice
  | [] => []
  | m :: ms =>
    let (outcome, pool) := w.weaveMethod breakInterning pool m
    methodNotices w className m outcome ++ methodsNotices w className breakInterning pool ms

/-- What there is to tell about weaving a class with that report. -/
def classNotices (w : Weaver) (store : Store) (c : Class) (r : WeaveReport) : List Notice :=
  if w.filter.includes c.name then
    methodsNotices w c.name (w.interning.includes c.name) (.ofClass store c.name) c.methods ++
      [.classWoven c.name r.instrumented.length r.failed.length]
  else [.excluded c.name]

/-- Weaves a class in a fresh store. -/
def weaveFresh (s : Surroundings) (config : Option String) (c : Class) :
    Logged (Class × WeaveReport × Store) := do
  let settings ← s.loadSettings config
  let weaver ← .quiet ((Weaver.ofSettings settings).mapError .weave)
  let store := Store.empty (.ofEnvironment s.environment)
  let (woven, report, after) := weaver.weaveClass store c
  .tell (classNotices weaver store c report)
  return (woven, report, after)

/-! ## 2. The command -/

/-- The line about a method that was left alone. -/
def complaint (e : String × WeaveError) : String :=
  "left uninstrumented: " ++ e.1 ++ ": " ++ e.2.message

def weave (s : Surroundings) (o : WeaveOptions) : Logged Effects := do
  let c ← .quiet (s.loadClass o.input)
  let (woven, report, _) ← weaveFresh s o.config c
  let listing := if o.quiet then "" else woven.listing
  let shown := if o.report then report.encode.pretty ++ "\n" else ""
  return ⟨o.output.map fun path => (path, woven.encode.pretty), listing ++ shown,
    report.failed.map complaint⟩

end Provenance.Tool
