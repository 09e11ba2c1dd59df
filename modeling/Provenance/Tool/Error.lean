/-
# What the command line refuses
-/
import Provenance.Machine.Error
import Provenance.Store.View

namespace Provenance

inductive ToolError where
  /-- A file cannot be read or written. -/
  | io (detail : String)
  /-- A text is no class. -/
  | json (detail : String)
  | weave (error : WeaveError)
  | run (error : RunError)
  | invalidArgument (text : String)
  deriving DecidableEq, Repr

/-- The kind of an error, by which callers tell errors apart. -/
def ToolError.kind : ToolError → String
  | io _ => "Io"
  | json _ => "Json"
  | weave _ => "Weave"
  | run _ => "Runtime"
  | invalidArgument _ => "InvalidArgument"

def ToolError.message : ToolError → String
  | io detail => "I/O error: " ++ detail
  | json detail => "malformed JSON: " ++ detail
  | weave error => "weaving failed: " ++ error.message
  | run error => "execution failed: " ++ error.message
  | invalidArgument text => "invalid argument '" ++ text ++ "'"

/-- An error as callers are told of it. -/
def ToolError.encode (e : ToolError) : Json := .ofError e.kind e.message

end Provenance
