/-
# The program

Everything that touches the outside world is here: the command line, the environment, the files
and the two output streams.
-/
import Provenance.Tool.Command

namespace Provenance.Shell

/-- The texts of those files that can be read. -/
def readFiles : List String → IO (List (String × String))
  | [] => return []
  | path :: rest => do
    let others ← readFiles rest
    try return (path, ← IO.FS.readFile path) :: others
    catch _ => return others

/-- The values of those variables that are set. -/
def readVariables : List String → IO (List (String × String))
  | [] => return []
  | name :: rest => do
    let others ← readVariables rest
    match ← IO.getEnv name with
    | some value => return (name, value) :: others
    | none => return others

/-- Writes the file and the streams; tells why the file could not be written. -/
def carryOut (l : CommandLine) (e : Effects) : IO (Option ToolError) := do
  let failure ← match e.file with
    | none => pure none
    | some (path, text) =>
      try
        IO.FS.writeFile path text
        pure none
      catch error => pure (some (ToolError.io (toString error)))
  match failure with
  | some error => return some error
  | none =>
    IO.print e.output
    IO.eprint (l.afterwards e)
    return none

/-- Does a command and gives the exit status. -/
def execute (l : CommandLine) : IO UInt32 := do
  let files ← readFiles l.command.reads
  let settings ← readVariables environmentNames
  let work := l.command.perform ⟨fun path => files.lookup path, fun name => settings.lookup name⟩
  IO.eprint (l.told work.notices)
  let failure ← match work.outcome with
    | .error e => pure (some e)
    | .ok effects => carryOut l effects
  match failure with
  | none => return 0
  | some error =>
    IO.eprintln ("Error: " ++ error.message)
    return 1

def usage : String :=
  "usage: flowtrack weave FILE [-c CONFIG] [-o OUTPUT] [-r] [-q] [-v]\n" ++
    "       flowtrack run FILE -m METHOD -d DESC [-a ARG]... [-c CONFIG] [--no-weave] [-v]"

end Provenance.Shell

def main (args : List String) : IO UInt32 :=
  match Provenance.CommandLine.parse? args with
  | some l => Provenance.Shell.execute l
  | none => do
    IO.eprintln Provenance.Shell.usage
    return 2
