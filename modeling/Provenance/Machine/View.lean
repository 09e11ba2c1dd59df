/-
# Values and objects in JSON

A value is an object with its kind; floating numbers are shown by their bits.  Objects and call
records may have names.  An object without a name is shown with its contents where it stands by
itself, and inside another one by its kind only.
-/
import Provenance.Machine.World
import Provenance.Number.Numeral
import Provenance.Store.View

namespace Provenance

/-- The bits of a number in hexadecimal. -/
def Single.encodeBits (x : Single) : Json :=
  .text (if x.decode.2 = .nan then "nan" else Numeral.hexPadded 8 x.bits.toNat)

def Double.encodeBits (x : Double) : Json :=
  .text (if x.isNaN then "nan" else Numeral.hexPadded 16 x.bits.toNat)

/-- An error as callers are told of it. -/
def RunError.encode (e : RunError) : Json := .ofError e.kind e.message

/-- What objects and call records are called. -/
structure Names where
  object : ObjectId → Option String
  record : Nat → Option String

namespace World

/-- A value other than a reference. -/
def encodePlain (w : World) (names : Names) : Value → Json
  | .int n => .tagged "int" (.int n.toInt)
  | .long n => .tagged "long" (.int n.toInt)
  | .float x => .tagged "float" x.encodeBits
  | .double x => .tagged "double" x.encodeBits
  | .point p => .tagged "point" p.encode
  | .record id =>
    .object [("inv", .ofOption .text (names.record id)), ("signature", .text (w.signatureOf id))]
  | .null | .ref _ => .null

/-- A reference, with something more about an object that has no name. -/
def encodeReference (names : Names) (o : ObjectId) (more : String × Json) : Json :=
  match names.object o with
  | some name => .tagged "ref" (.text name)
  | none => .object [("ref", .null), more]

/-- A value inside an object. -/
def encodeInner (w : World) (names : Names) (h : Heap) : Value → Json
  | .ref o => encodeReference names o ("kind", .text (h.object o).kind)
  | v => w.encodePlain names v

/-- An object with its contents. -/
def encodeObject (w : World) (names : Names) (h : Heap) (o : ObjectId) : Json :=
  match h.object o with
  | .array elem values =>
    .object [("array", .text elem.descriptor),
      ("values", .list (values.toList.map (w.encodeInner names h))),
      ("text", .ofOption .text (h.text? o))]
  | .string chars => .tagged "string" (.text (String.ofList chars.toList))
  | .instance className fields =>
    .object [("instance", .text className),
      ("fields", .object (fields.map fun (k, v) => (k, w.encodeInner names h v)))]

/-- A value by itself. -/
def encodeValue (w : World) (names : Names) (h : Heap) : Value → Json
  | .ref o => encodeReference names o ("new", w.encodeObject names h o)
  | v => w.encodePlain names v

/-- A reading of a value, or why it is not to be had. -/
def encodeReading {α : Type} (r : Except RunError α) (f : α → Json) : Json :=
  match r with
  | .ok a => f a
  | .error e => e.encode

/-- Everything that can be asked of a value, given a type.  An instance has no text, because the
only one it could have is not the same from run to run. -/
def valueFacts (w : World) (names : Names) (t : Ty) (v : Value) : Json :=
  let h := w.heap
  let text (s : String) : Json := match v.object?.map h.object with
    | some (.instance _ _) => .null
    | _ => .text s
  .object [("describe", .text (h.describe v)), ("is_null", .bool v.isNull),
    ("narrowed", w.encodeInner names h (v.narrowed t)), ("render", text (w.render t v)),
    ("display", text (w.display v)), ("default", w.encodeInner names h (.defaultFor t)),
    ("as_int", encodeReading (h.int v) fun n => .int n.toInt),
    ("as_long", encodeReading (h.long v) fun n => .int n.toInt),
    ("as_float", encodeReading (h.float v) Single.encodeBits),
    ("as_double", encodeReading (h.double v) Double.encodeBits),
    ("as_object", encodeReading (h.target "context" v) fun o => .text (h.object o).kind),
    ("as_point", encodeReading (h.point v) (Json.ofOption Point.encode)),
    ("as_invocation", encodeReading (h.record v)
      (Json.ofOption fun id => .text (w.signatureOf id)))]

/-- A call of a scripted native. -/
def encodeNote (w : World) (names : Names) (n : CallNote) : Json :=
  .object [("native", .text n.key), ("args", .list (n.args.map (w.encodeValue names w.heap))),
    ("points", .list (n.points.map fun p => .ofOption Point.encode p)),
    ("recorded", .bool n.recorded)]

end World

end Provenance
