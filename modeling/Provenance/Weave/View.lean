/-
# Sites in JSON
-/
import Provenance.Flow.View
import Provenance.Weave.Site

namespace Provenance

/-- What belongs to an action besides its kind. -/
def SiteAction.details : SiteAction → List (String × Json)
  | .arrayStore elem v => [("elem", elem.encode), ("value", v.encode)]
  | .fieldStore key v => [("field_id", .text key), ("value", v.encode)]
  | .callArguments args => [("args", .list (args.map fun a => .ofOption FlowValue.encode a))]
  | .returnValue v => [("value", v.encode)]
  | .concat args vs =>
    [("args", .list (args.map Ty.encode)), ("values", .list (vs.map FlowValue.encode))]
  | .stringComparison equal target => [("equal", .bool equal), ("target", .nat target)]
  | .stringLiteral text => [("value", .text text)]
  | .arrayCopy | .arrayClone => []

def Site.encode (s : Site) : Json :=
  .object ([("kind", .text s.action.kind.name), ("insn", .nat s.insn)] ++ s.action.details)

end Provenance
