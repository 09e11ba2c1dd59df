/-
# Trackers and points

A tracker is the ledger of one object.  Origins, sinks and fixed trackers have a content; default
trackers and sinks record where their data came from.  A point is a place in a tracker, with a
length, and is what travels with a value at run time.
-/
import Provenance.Store.Part
import Provenance.Store.Table
import Provenance.Text.Utf8

namespace Provenance

/-- What a tracker is for. -/
inductive Role where
  /-- Made on demand for an object; only records parts. -/
  | default
  /-- Data begins here; the tracker is its own content. -/
  | origin
  /-- Data is written here; holds content and records parts. -/
  | sink
  /-- Content known at creation and never changed. -/
  | fixed
  /-- No content, only a name. -/
  | tag
  deriving DecidableEq, Repr, Inhabited

namespace Role

def name : Role → String
  | default => "default"
  | origin => "origin"
  | sink => "sink"
  | fixed => "fixed"
  | tag => "tag"

/-- Whether parts are recorded.  Copies out of such a tracker are traced to its sources at once. -/
def recordsParts : Role → Bool
  | default | sink => true
  | _ => false

def acceptsContent : Role → Bool
  | origin | sink => true
  | _ => false

def hasContent : Role → Bool
  | origin | sink | fixed => true
  | _ => false

end Role

/-- What the store refuses. -/
inductive StoreError where
  | notAppendable (id : TrackerId) (role : Role)
  | immutable (id : TrackerId) (role : Role)
  | twinAlreadySet (id : TrackerId)
  | selfTwin
  | slotOutOfRange (slot maximum : Nat)
  | unknownTable (classId : Nat)
  | constantOutOfRange (classId offset length tableLength : Nat)
  deriving DecidableEq, Repr

/-- The number of a tracker as texts show it. -/
def trackerName (id : TrackerId) : String := "#" ++ toString id

/-- The kind of an error, by which callers tell errors apart. -/
def StoreError.kind : StoreError → String
  | notAppendable _ _ => "NotAppendable"
  | immutable _ _ => "Immutable"
  | twinAlreadySet _ => "TwinAlreadySet"
  | selfTwin => "SelfTwin"
  | slotOutOfRange _ _ => "ArgSlotOutOfRange"
  | unknownTable _ => "UnknownConstantTable"
  | constantOutOfRange _ _ _ _ => "ConstantOutOfRange"

def StoreError.message : StoreError → String
  | notAppendable id role =>
    "tracker " ++ trackerName id ++ " with role " ++ role.name ++ " does not accept content"
  | immutable id role =>
    "tracker " ++ trackerName id ++ " with role " ++ role.name ++ " is immutable"
  | twinAlreadySet id => "tracker " ++ trackerName id ++ " already has a twin"
  | selfTwin => "a tracker cannot be its own twin"
  | slotOutOfRange slot maximum =>
    "argument slot " ++ toString slot ++ " out of range (maximum " ++ toString maximum ++ ")"
  | unknownTable classId => "unknown constant table: " ++ toString classId
  | constantOutOfRange classId offset length tableLength =>
    "constant range " ++ toString offset ++ "+" ++ toString length ++ " outside table " ++
      toString classId ++ " of length " ++ toString tableLength

/-- The other direction of a channel, and the conversation between the two. -/
structure Twin where
  other : TrackerId
  conversation : Nat
  deriving DecidableEq, Repr

/-- The ledger of one object. -/
structure Tracker where
  role : Role
  content : List UInt8
  descriptor : Option String
  parts : List Part
  twin : Option Twin
  deriving Repr

namespace Tracker

def new (role : Role) (content : List UInt8) (descriptor : Option String) : Tracker :=
  ⟨role, content, descriptor, [], none⟩

/-- The length of the content, of a default tracker the end of its last part. -/
def length (t : Tracker) : Nat :=
  match t.role with
  | .origin | .sink | .fixed => t.content.length
  | .default => Parts.stop t.parts
  | .tag => 0

/-- The content as text. -/
def text (t : Tracker) : String := Utf8.decodeLossy t.content

/-- The parts and the gaps between them. -/
def snapshot (t : Tracker) : List Stretch := Parts.pieces 0 t.parts

end Tracker

/-- A place where a value came from, and how far it reaches. -/
structure Point where
  tracker : TrackerId
  index : Nat
  length : Nat
  deriving DecidableEq, Repr

/-- The same place with another length. -/
def Point.withLength (p : Point) (length : Nat) : Point := { p with length }

/-- A switch of sides in a conversation: the tracker that began to receive, and how long the two
contents were then. -/
structure Marker where
  receiver : TrackerId
  receiverIndex : Nat
  otherIndex : Nat
  deriving DecidableEq, Repr

/-- The order in which the two directions of a channel received their contents. -/
structure Conversation where
  first : TrackerId
  second : TrackerId
  /-- The side that received last. -/
  previous : Option TrackerId
  markers : List Marker
  deriving Repr

namespace Conversation

def start (first second : TrackerId) : Conversation := ⟨first, second, none, []⟩

/-- The partner of a side. -/
def otherOf (c : Conversation) (id : TrackerId) : TrackerId :=
  if id = c.first then c.second else c.first

/-- Notes that a side is about to receive; a switch of sides leaves a marker. -/
def note (c : Conversation) (id : TrackerId) (ownLength otherLength : Nat) : Conversation :=
  let switched := match c.previous with
    | some p => p != id
    | none => false
  { c with
    previous := some id
    markers := if switched then c.markers ++ [⟨id, ownLength, otherLength⟩] else c.markers }

end Conversation

end Provenance
