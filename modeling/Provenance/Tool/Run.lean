/-
# The command that runs a method

The class is woven first, unless asked not to, and after the run it is shown what the store
learnt about the arrays given as arguments and about the result.
-/
import Provenance.Machine.Run
import Provenance.Tool.Argument
import Provenance.Tool.Weave

namespace Provenance.Tool

/-- An object whose provenance is shown after the run. -/
structure Observed where
  label : String
  object : ObjectId
  /-- The tracker that its contents came from. -/
  origin : Option TrackerId
  deriving DecidableEq, Repr

/-! ## 1. Arguments -/

/-- An array of the characters of a text whose tracker is an origin with that text. -/
def trackedChars (w : World) (label text : String) : Value × Observed × World :=
  let (o, w) := w.allocate (.charArray text)
  let (id, store) := w.store.addTracker (.new .origin [] (some label))
  let store := match store.onLedger fun l => l.append id (Utf8.bytes text) with
    | .ok store => store
    | .error _ => store
  let w := { w with store }
  let alive := w.alive (.pure [.ref o])
  (.ref o, ⟨label, o, some id⟩, { w with store := w.store.setTracker alive o id })

/-- The value of an argument, with what is to be observed. -/
def argumentValue (w : World) (label : String) : Argument → Value × Option Observed × World
  | .int n => (.int n, none, w)
  | .null => (.null, none, w)
  | .str text =>
    let (o, w) := w.allocate (.ofText text)
    (.ref o, none, w)
  | .chars text =>
    let (v, observed, w) := trackedChars w label text
    (v, some observed, w)
  | .buffer length =>
    let (o, w) := w.allocate (.newArray .char length)
    (.ref o, some ⟨label, o, none⟩, w)

/-- The values of arguments, the first of them with the given number.  All of them are held, so
that the world does not drop their trackers while the others are made. -/
def argumentValues (w : World) (index : Nat) :
    List String → Except ToolError (List Value × List Observed × World)
  | [] => .ok ([], [], w)
  | text :: rest =>
    match Argument.parse text with
    | .error e => .error e
    | .ok a =>
      let (v, observed, w) := argumentValue w ("argument " ++ toString index) a
      match argumentValues { w with held := v :: w.held } (index + 1) rest with
      | .error e => .error e
      | .ok (vs, others, w) => .ok (v :: vs, observed.toList ++ others, w)

/-- Each argument is made while those before it are held. -/
theorem argumentValues_cons {w w' : World} {index : Nat} {text : String} {rest : List String}
    {values : List Value} {observed : List Observed}
    (h : argumentValues w index (text :: rest) = .ok (values, observed, w')) :
    ∃ a v x w₁ vs others, Argument.parse text = .ok a ∧
      argumentValue w ("argument " ++ toString index) a = (v, x, w₁) ∧
      argumentValues { w₁ with held := v :: w₁.held } (index + 1) rest = .ok (vs, others, w') ∧
      values = v :: vs ∧ observed = x.toList ++ others := by
  unfold argumentValues at h
  split at h
  · cases h
  · rename_i a ha
    simp only at h
    split at h
    · cases h
    · rename_i vs others w'' hrest
      obtain ⟨rfl, rfl, rfl⟩ : values = _ ∧ observed = _ ∧ w' = w'' := by simpa [eq_comm] using h
      exact ⟨a, _, _, _, vs, others, ha, rfl, hrest, rfl, rfl⟩

/-! ## 2. Running -/

/-- What is observed about a result. -/
def observedResult : Option Value → List Observed
  | some (.ref o) => [⟨"result", o, none⟩]
  | _ => []

structure RunOutcome where
  result : Option Value
  observed : List Observed
  world : World

/-- The class to run and the store after it was woven. -/
def prepare (s : Surroundings) (o : RunOptions) (c : Class) : Logged (Class × Store) :=
  if o.noWeave then return (c, .empty (.ofEnvironment s.environment))
  else do
    let (woven, report, store) ← weaveFresh s o.config c
    .tell (report.failed.map fun (signature, e) => .runsAsItIs signature e)
    return (woven, store)

/-- Calls the method with the values of the arguments. -/
def runWith (limits : MachineSettings) (c : Class) (o : RunOptions) (values : List Value)
    (observed : List Observed) (world : World) : Except ToolError RunOutcome :=
  let world := { world with held := observed.map fun x => .ref x.object }
  let r := (Program.empty.load c).invoke limits world c.name o.method o.desc values
  match r.outcome with
  | .error e => .error (.run e)
  | .ok result =>
    let observed := observed ++ observedResult result
    .ok ⟨result, observed, { r.world with held := observed.map fun x => .ref x.object }⟩

/-- Runs the method of a class file. -/
def runFile (s : Surroundings) (o : RunOptions) : Logged RunOutcome := do
  let c ← .quiet (s.loadClass o.input)
  let (c, store) ← prepare s o c
  let settings ← s.storeSettings
  let (values, observed, world) ←
    .quiet (argumentValues { World.empty settings with store } 0 o.args)
  let limits ← s.machineSettings
  .tell [.classLoaded c, .invoking c.name o.method o.desc]
  .quiet (runWith limits c o values observed world)

/-! ## 3. Showing -/

/-- A piece of a tracker as it is stored. -/
def encodeStretch (p : Stretch) : Json :=
  .object [("length", .nat p.length), ("source", .ofOption (fun q => .nat q.source) p.place),
    ("source_index", .nat (match p.place with | some q => q.index | none => 0))]

/-- The parts and gaps of a tracker as they are stored. -/
def encodeSnapshot (t : Tracker) : Json := .object [("parts", .list (t.snapshot.map encodeStretch))]

/-- What is known about an observed object, and the world after it was looked up. -/
def showObserved (w : World) (x : Observed) : String × World :=
  let text := (w.heap.text? x.object).getD (w.heap.name x.object)
  let origin := match x.origin with
    | some id => " (origin tracker " ++ trackerName id ++ ")"
    | none => ""
  let (tracker, store) := w.store.trackerOf (w.alive (.pure [.ref x.object])) x.object
  let known := match tracker.bind store.ledger.tracker? with
    | some t => (encodeSnapshot t).pretty
    | none => "  no provenance recorded"
  (x.label ++ " " ++ Text.quote text ++ origin ++ "\n" ++ known ++ "\n", { w with store })

def showAll (w : World) : List Observed → String
  | [] => ""
  | x :: rest =>
    let (text, w) := showObserved w x
    text ++ showAll w rest

def RunOutcome.render (r : RunOutcome) : String :=
  let result := match r.result with
    | some v => r.world.display v
    | none => "(void)"
  "result: " ++ result ++ "\n" ++ showAll r.world r.observed

def run (s : Surroundings) (o : RunOptions) : Logged Effects := do
  let r ← runFile s o
  return ⟨none, r.render, []⟩

end Provenance.Tool
