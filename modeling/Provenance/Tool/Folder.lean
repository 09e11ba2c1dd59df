/-
# Files in memory

A folder holds files, some of them in folders of their own, and paths lead through it step by
step.  A step is possible only from a folder that is there; an empty step or a dot stays, two dots
lead back.  Of what lies outside only this much is known: the folder around is there, and so are
the terminal's two streams, a folder for passing files and a device that holds nothing.
-/
import Provenance.Text.Blank

namespace Provenance

/-- Files by the steps that lead to them. -/
structure Folder where
  files : List (List String × String)
  deriving DecidableEq, Repr

/-- Where a path leads. -/
inductive Whereabouts where
  /-- A spot in the folder, whether or not anything is there. -/
  | inside (steps : List String)
  /-- From the folder around on by these steps. -/
  | above (steps : List String)
  /-- From the root on by these steps. -/
  | root (steps : List String)
  /-- Nowhere, since some folder on the way is not there. -/
  | nowhere
  deriving DecidableEq, Repr

/-- What becomes of a text that is written. -/
inductive Destination where
  | file (steps : List String)
  /-- A file outside the folder. -/
  | elsewhere
  | output
  | errors
  deriving DecidableEq, Repr

namespace Folder

/-- The steps of a path, those that do not lead on included. -/
def stepsOf (path : String) : List String :=
  (Text.splitAt '/' path.toList).map String.ofList

/-- Whether a step stays in the folder it starts from. -/
def stays (step : String) : Bool := step = "" || step = "."

/-- The steps that have names. -/
def named (steps : List String) : List String := steps.filter fun s => !stays s && s ≠ ".."

/-- The folder of files with the given paths. -/
def ofFiles (files : List (String × String)) : Folder :=
  ⟨files.map fun f => (named (stepsOf f.1), f.2)⟩

/-- Whether there is a folder at a spot: the whole one, or one with a file in it. -/
def isFolder (f : Folder) (steps : List String) : Bool :=
  steps.isEmpty ||
    f.files.any fun e => steps.isPrefixOf e.1 && decide (steps.length < e.1.length)

/-- How many bytes the name of a file may have. -/
def nameBound : Nat := 255

/-- Follows steps from a spot. -/
def follow (f : Folder) (here : List String) : List String → Whereabouts
  | [] => .inside here
  | step :: rest =>
    if !f.isFolder here || nameBound < step.utf8ByteSize then .nowhere
    else if stays step then f.follow here rest
    else if step = ".." then
      match here with
      | [] => .above rest
      | _ :: _ => f.follow here.dropLast rest
    else f.follow (here ++ [step]) rest

def locate (f : Folder) (path : String) : Whereabouts :=
  match path.toList with
  | '/' :: _ => .root (stepsOf path)
  | _ => f.follow [] (stepsOf path)

/-- The text of the file at a path. -/
def read? (f : Folder) (path : String) : Option String :=
  match f.locate path with
  | .inside steps => f.files.lookup steps
  | .root steps => if named steps = ["dev", "null"] then some "" else none
  | _ => none

/-- Where a text goes that is written to a path, if it can be: a folder cannot be written to. -/
def destination? (f : Folder) (path : String) : Option Destination :=
  match f.locate path with
  | .inside steps => if f.isFolder steps then none else some (.file steps)
  | .above steps =>
    match steps.reverse with
    | last :: way => if named [last] = [last] ∧ named way = [] then some .elsewhere else none
    | [] => none
  | .root steps =>
    match named steps with
    | ["dev", "null"] => some .elsewhere
    | ["dev", "stdout"] => some .output
    | ["dev", "stderr"] => some .errors
    | ["tmp", _] => some .elsewhere
    | _ => none
  | .nowhere => none

def write (f : Folder) (steps : List String) (text : String) : Folder :=
  ⟨(steps, text) :: f.files.filter fun e => e.1 ≠ steps⟩

end Folder

end Provenance
