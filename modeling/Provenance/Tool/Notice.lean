/-
# Notices

On the error stream a command tells what went wrong without stopping it and, when asked to tell
everything, what it did.  A notice is a message with named details.  The names of classes and
methods in it are shown as they are, so one with a line feed in it spreads the notice over lines.
-/
import Provenance.Code.Method
import Provenance.Flow.Error

namespace Provenance

/-- How much a notice matters. -/
inductive Weight where
  /-- Something could not be done. -/
  | warning
  /-- Something was done. -/
  | news
  /-- A step on the way. -/
  | detail
  deriving DecidableEq, Repr

structure Notice where
  weight : Weight
  message : String
  /-- Names and values. -/
  details : List (String × String)
  deriving DecidableEq, Repr

namespace Notice

/-! ## 1. Text -/

/-- Text shown in a style of the terminal, of which there is a number. -/
def styled (style : Nat) (text : String) : String :=
  "\x1b[" ++ toString style ++ "m" ++ text ++ "\x1b[0m"

/-- The weight in its colour. -/
def label : Weight → String
  | .warning => styled 33 " WARN"
  | .news => styled 32 " INFO"
  | .detail => styled 34 "DEBUG"

/-- A detail: its name in italics, a faint equals sign, its value. -/
def showDetail (d : String × String) : String := " " ++ styled 3 d.1 ++ styled 2 "=" ++ d.2

def text (n : Notice) : String :=
  label n.weight ++ " " ++ n.message ++ String.join (n.details.map showDetail) ++ "\n"

/-- Whether a notice is shown: warnings always are, the others if everything is to be told. -/
def isShown (verbose : Bool) (n : Notice) : Bool := verbose || n.weight = .warning

/-! ## 2. Occasions -/

/-- A variable that is set to something that cannot be used. -/
def unusable (name value : String) : Notice :=
  ⟨.warning, "Invalid " ++ name ++ " '" ++ value ++ "', using default", []⟩

/-- What there is to tell about a variable: nothing if it is not set or can be used. -/
def ofVariable (env : String → Option String) (usable : String → Bool) (name : String) :
    List Notice :=
  match env name with
  | none => []
  | some value => if usable value then [] else [unusable name value]

def excluded (className : String) : Notice :=
  ⟨.detail, "excluded by filter", [("class", className)]⟩

def leftAlone (className : String) (m : Method) (e : WeaveError) : Notice :=
  ⟨.warning, "leaving method uninstrumented",
    [("class", className), ("method", m.signature), ("error", e.message)]⟩

/-- A method that was woven at so many sites after so many visits. -/
def methodWoven (m woven : Method) (sites iterations : Nat) : Notice :=
  ⟨.detail, "instrumented",
    [("method", m.signature), ("sites", toString sites), ("iterations", toString iterations),
      ("max_stack", toString woven.maxStack), ("max_locals", toString woven.maxLocals)]⟩

def classWoven (className : String) (instrumented failed : Nat) : Notice :=
  ⟨.news, "woven",
    [("class", className), ("instrumented", toString instrumented), ("failed", toString failed)]⟩

def classWritten (path : String) : Notice := ⟨.news, "wrote woven class", [("output", path)]⟩

def runsAsItIs (signature : String) (e : WeaveError) : Notice :=
  ⟨.warning, "running uninstrumented", [("method", signature), ("error", e.message)]⟩

def classLoaded (c : Class) : Notice :=
  ⟨.detail, "loaded class", [("class", c.name), ("methods", toString c.methods.length)]⟩

def invoking (owner method desc : String) : Notice :=
  ⟨.detail, "invoking", [("owner", owner), ("method", method), ("desc", desc)]⟩

end Notice

end Provenance
