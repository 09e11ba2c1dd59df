/-
# Commands on files in memory

What the program does to a small set of files, without touching any: the exit status, the texts
on both streams, the error and the files afterwards.
-/
import Provenance.Tool.Command
import Provenance.Tool.Folder

namespace Provenance

structure Rehearsal where
  exit : Nat
  output : String
  /-- The error stream, but for the lines that tell why the exit status is not zero. -/
  errors : String
  error : Option ToolError
  folder : Folder
  deriving Repr

namespace Rehearsal

/-- The lines on the error stream that say that a method was left alone. -/
def complaints (r : Rehearsal) : List String :=
  ((Text.lines r.errors.toList).filter "left uninstrumented: ".toList.isPrefixOf).map String.ofList

/-- Carries out what a command wants done, with the error stream as it is until then. -/
def carryOut (l : CommandLine) (folder : Folder) (errors : String) (e : Effects) : Rehearsal :=
  match e.file with
  | none => ⟨0, e.output, errors ++ l.afterwards e, none, folder⟩
  | some (path, text) =>
    match folder.destination? path with
    | none => ⟨1, "", errors, some (.io ("cannot write " ++ path)), folder⟩
    | some (.file steps) =>
      ⟨0, e.output, errors ++ l.afterwards e, none, folder.write steps text⟩
    | some .elsewhere => ⟨0, e.output, errors ++ l.afterwards e, none, folder⟩
    | some .output => ⟨0, text ++ e.output, errors ++ l.afterwards e, none, folder⟩
    | some .errors => ⟨0, e.output, errors ++ text ++ l.afterwards e, none, folder⟩

/-- The program in a folder, with that environment and command line. -/
def run (folder : Folder) (environment : List (String × String)) (args : List String) :
    Rehearsal :=
  match CommandLine.parse? args with
  | none => ⟨2, "", "", none, folder⟩
  | some l =>
    let work := l.command.perform ⟨folder.read?, fun name => environment.lookup name⟩
    let errors := l.told work.notices
    match work.outcome with
    | .error e => ⟨1, "", errors, some e, folder⟩
    | .ok effects => carryOut l folder errors effects

end Rehearsal

end Provenance
