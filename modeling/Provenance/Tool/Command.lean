/-
# Commands
-/
import Provenance.Tool.Run

namespace Provenance

namespace Command

/-- The files that a command reads. -/
def reads : Command → List String
  | .weave o => o.input :: o.config.toList
  | .run o => o.input :: o.config.toList

/-- Does what a command asks for. -/
def perform (s : Surroundings) : Command → Logged Effects
  | .weave o => Tool.weave s o
  | .run o => Tool.run s o

end Command

namespace CommandLine

/-- The notices that are shown. -/
def told (l : CommandLine) (notices : List Notice) : String :=
  String.join ((notices.filter (Notice.isShown l.verbose)).map Notice.text)

/-- The error stream after the file is written. -/
def afterwards (l : CommandLine) (e : Effects) : String :=
  l.told e.notices ++ String.join (e.complaints.map (· ++ "\n"))

end CommandLine

end Provenance
