/-
# Types, literals and instructions in JSON

The facts that can be asked of them, for tools that inspect code.
-/
import Provenance.Code.Listing
import Provenance.Code.Stored

namespace Provenance

def Ty.facts (t : Ty) : Json :=
  .object [("descriptor", t.encode), ("display", .text t.display),
    ("tracked_scalar", .bool t.isTrackedScalar), ("tracked_element", .bool t.isTrackedElement),
    ("reference", .bool t.isReference), ("string", .bool t.isString), ("null", .bool t.isNull),
    ("array_of", (Ty.array t).encode)]

def MethodDesc.facts (d : MethodDesc) : Json :=
  .object [("params", .list (d.params.map Ty.encode)), ("ret", d.ret.encode),
    ("display", .text d.descriptor), ("mentions_buffer", .bool d.mentionsBuffer)]

def Constant.facts (c : Constant) : Json :=
  .object [("type", c.ty.encode), ("integral", .ofOption (fun n => .int n.toInt) c.integral?),
    ("display", .text c.display)]

def Insn.facts (i : Insn) : List (String × Json) :=
  [("display", .text i.display), ("pops", .nat i.pops), ("pushes", .nat i.pushes),
    ("jump_target", .ofOption .nat i.jumpTarget?), ("falls_through", .bool i.fallsThrough),
    ("is_return", .bool i.isReturn), ("local", .ofOption .nat i.local?)]

end Provenance
