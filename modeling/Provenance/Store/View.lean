/-
# Trackers in JSON

Points, parts and snapshots as lists of numbers, and everything there is to know about a tracker.
-/
import Provenance.Json.Basic
import Provenance.Store.Ledger

namespace Provenance

/-- An error as callers are told of it. -/
def Json.ofError (kind message : String) : Json :=
  .object [("error", .text kind), ("message", .text message)]

def StoreError.encode (e : StoreError) : Json := .ofError e.kind e.message

def Point.encode (p : Point) : Json := .list [.nat p.tracker, .nat p.index, .nat p.length]

def Part.encode (p : Part) : Json :=
  .list [.nat p.start, .nat p.length, .nat p.source, .nat p.sourceIndex]

/-- A piece of a snapshot: its length, where it came from, and whether it is a gap. -/
def Stretch.encode (s : Stretch) : Json :=
  let source := Json.ofOption (fun q : Place => .nat q.source) s.place
  let index := match s.place with
    | some q => q.index
    | none => 0
  .list [.nat s.length, source, .nat index, .bool s.place.isNone]

def Tracker.encodeSnapshot (t : Tracker) : Json := .list (t.snapshot.map Stretch.encode)

def Marker.encode (m : Marker) : Json :=
  .list [.nat m.receiver, .nat m.receiverIndex, .nat m.otherIndex]

/-- A tracker with its twin and their conversation. -/
def Ledger.encodeTracker (l : Ledger) (id : TrackerId) (t : Tracker) : Json :=
  let markers (c : Conversation) : Json := .list (c.markers.map Marker.encode)
  .object [("id", .nat id), ("role", .text t.role.name),
    ("descriptor", .ofOption .text t.descriptor), ("len", .nat t.length),
    ("empty", .bool (t.length = 0)),
    ("bytes", .list (t.content.map fun b => .nat b.toNat)), ("text", .text t.text),
    ("twin", .ofOption .nat (l.twin? id)), ("markers", .ofOption markers (l.conversation? id)),
    ("part_count", .nat t.parts.length), ("parts", .list (t.parts.map Part.encode)),
    ("mutable", .bool t.role.recordsParts), ("accepts", .bool t.role.acceptsContent),
    ("has_content", .bool t.role.hasContent)]

end Provenance
