/-
# Weaving classes

Each method is analysed and planned on its own.  A method that cannot be is left as it is and
reported; the others are woven all the same.
-/
import Provenance.Flow.Height
import Provenance.Weave.Plan
import Provenance.Weave.Settings

namespace Provenance

structure Weaver where
  settings : WeaveSettings
  filter : ClassFilter
  interning : ClassFilter
  deriving Repr

/-- What happened to a class. -/
structure WeaveReport where
  className : String
  included : Bool
  /-- The signatures of the methods that were changed. -/
  instrumented : List String
  unchanged : List String
  /-- The signatures of the methods left alone because of an error. -/
  failed : List (String × WeaveError)
  /-- The kinds of all sites in methods that were changed. -/
  sites : List SiteKind
  /-- The number of the class's table of literals, if it got one. -/
  constantTable : Option Nat
  deriving Repr

namespace WeaveReport

/-- How many sites of each kind there are, in the order of their names, without those that do not
occur. -/
def siteCounts (r : WeaveReport) : List (String × Nat) :=
  (SiteKind.all.map fun k => (k.name, r.sites.count k)).filter fun e => e.2 ≠ 0

def encode (r : WeaveReport) : Json :=
  .object [("class_name", .text r.className), ("included", .bool r.included),
    ("instrumented", .list (r.instrumented.map .text)),
    ("unchanged", .list (r.unchanged.map .text)), ("failed", .list (r.failed.map fun (m, e) =>
      .object [("method", .text m), ("error", .text e.message)])),
    ("sites", .object (r.siteCounts.map fun (k, n) => (k, .nat n))),
    ("constant_table", .ofOption .nat r.constantTable)]

end WeaveReport

namespace Weaver

/-- The weaver of valid settings. -/
def ofSettings (settings : WeaveSettings) : Except WeaveError Weaver :=
  match settings.validate with
  | .error e => .error e
  | .ok () =>
    match ClassFilter.parse settings.filter with
    | .error e => .error e
    | .ok filter =>
      match ClassFilter.parse settings.breakStringInterning with
      | .error e => .error e
      | .ok interning => .ok ⟨settings, filter, interning⟩

/-- The greatest number of locals that can be declared. -/
def localLimit : Nat := 65535

/-- What speaks against a method with more locals than can be declared.  Their numbers wrap around,
so the first one to be set whose number did not is out of range. -/
def tooManyLocals (m : Method) : WeaveError :=
  let number (i : Insn) : Nat := i.local?.getD 0 % (localLimit + 1)
  let declared := m.maxLocals % (localLimit + 1)
  let index := m.insns.findIdx fun i => i.local?.isSome && declared ≤ number i
  .invalidLocal index ((m.insns[index]?.map number).getD 0) declared

/-- A woven method, unless it has too many locals or declares less stack than it needs. -/
def checkDepth (m : Method) : Except WeaveError Method :=
  if localLimit < m.maxLocals then .error (tooManyLocals m)
  else match requiredStack m with
  | .error e => .error e
  | .ok required =>
    if m.maxStack < required then .error (.unsupported 0 (.depthExceeded required m.maxStack))
    else .ok m

/-- Weaves one method; nothing if it needs no change.  Literals that were registered stay in the
pool in every case. -/
def weaveMethod (w : Weaver) (breakInterning : Bool) (pool : LiteralPool) (m : Method) :
    Except WeaveError (Option (Method × List SiteKind)) × LiteralPool :=
  match Analysis.ofMethod w.settings.order w.settings.maxIterations m with
  | .error e => (.error e, pool)
  | .ok analysis =>
    let sites := Site.find m analysis breakInterning
    if sites.isEmpty then (.ok none, pool)
    else
      let context : PlanContext := ⟨m, analysis⟩
      match (Plan.planSites context sites).run.run (Plan.start context pool) with
      | (.error e, plan) => (.error e, plan.pool)
      | (.ok (), plan) =>
        if plan.hasEdits then
          match checkDepth (plan.woven m) with
          | .error e => (.error e, plan.pool)
          | .ok woven => (.ok (some (woven, sites.map fun s => s.action.kind)), plan.pool)
        else (.ok none, plan.pool)

/-- Weaves methods one after the other, adding to a report. -/
def weaveMethods (w : Weaver) (breakInterning : Bool) (pool : LiteralPool) (r : WeaveReport) :
    List Method → List Method × WeaveReport × LiteralPool
  | [] => ([], r, pool)
  | m :: ms =>
    match w.weaveMethod breakInterning pool m with
    | (.ok (some (woven, kinds)), pool) =>
      let r := { r with instrumented := r.instrumented ++ [m.signature], sites := r.sites ++ kinds }
      let (rest, r, pool) := w.weaveMethods breakInterning pool r ms
      (woven :: rest, r, pool)
    | (.ok none, pool) =>
      let r := { r with unchanged := r.unchanged ++ [m.signature] }
      let (rest, r, pool) := w.weaveMethods breakInterning pool r ms
      (m :: rest, r, pool)
    | (.error e, pool) =>
      let r := { r with failed := r.failed ++ [(m.signature, e)] }
      let (rest, r, pool) := w.weaveMethods breakInterning pool r ms
      (m :: rest, r, pool)

/-- Weaves a class. -/
def weaveClass (w : Weaver) (store : Store) (c : Class) : Class × WeaveReport × Store :=
  let report : WeaveReport := ⟨c.name, false, [], [], [], [], none⟩
  if w.filter.includes c.name then
    let pool := LiteralPool.ofClass store c.name
    let (methods, report, pool) :=
      w.weaveMethods (w.interning.includes c.name) pool { report with included := true } c.methods
    ({ c with methods }, { report with constantTable := pool.table }, pool.store)
  else (c, { report with unchanged := c.methods.map Method.signature }, store)

end Weaver

end Provenance
