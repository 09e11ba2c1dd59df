/-
# The ledger: all trackers

Every operation on trackers is a function on the ledger as a whole, because a copy reads the parts
of one tracker and writes those of another, and because twins note each other's lengths.

A source that itself records parts is never stored: its parts at the time of the copy are stored
in its place, so later changes of it reach no other tracker, and `resolve` needs one step.
-/
import Provenance.Store.Tracker

namespace Provenance

structure Ledger where
  trackers : Table Tracker
  conversations : Table Conversation
  deriving Repr

namespace Ledger

def empty : Ledger := ⟨.empty, .empty⟩

instance : Inhabited Ledger := ⟨empty⟩

def tracker? (l : Ledger) (id : TrackerId) : Option Tracker := l.trackers.get? id

def modifyTracker (l : Ledger) (id : TrackerId) (f : Tracker → Tracker) : Ledger :=
  { l with trackers := l.trackers.modify id f }

/-- Adds a tracker and gives its number. -/
def add (l : Ledger) (t : Tracker) : TrackerId × Ledger :=
  (l.trackers.nextId, { l with trackers := l.trackers.add t })

/-- The parts of a tracker. -/
def parts (l : Ledger) (id : TrackerId) : List Part :=
  match l.tracker? id with
  | some t => t.parts
  | none => []

/-- The length of a tracker; a tracker that is gone has none. -/
def length (l : Ledger) (id : TrackerId) : Nat :=
  match l.tracker? id with
  | some t => t.length
  | none => 0

/-! ## 1. Content and conversations -/

/-- Notes in the conversation of twins that one of them, of the given length, is about to receive.
-/
def noteAppend (l : Ledger) (id : TrackerId) (twin : Twin) (ownLength : Nat) : Ledger :=
  let note (c : Conversation) : Conversation := c.note id ownLength (l.length twin.other)
  { l with conversations := l.conversations.modify twin.conversation note }

/-- Grows the content of an origin or a sink, noting the switch of sides if it has a twin. -/
def append (l : Ledger) (id : TrackerId) (data : List UInt8) : Except StoreError Ledger :=
  match l.tracker? id with
  | none => .ok l
  | some t =>
    if t.role.acceptsContent then
      let noted := match t.twin with
        | none => l
        | some twin => l.noteAppend id twin t.length
      .ok (noted.modifyTracker id fun t => { t with content := t.content ++ data })
    else .error (.notAppendable id t.role)

def setDescriptor (l : Ledger) (id : TrackerId) (descriptor : String) : Ledger :=
  l.modifyTracker id fun t => { t with descriptor := some descriptor }

/-- Makes two trackers the directions of one channel. -/
def link (l : Ledger) (first second : TrackerId) : Ledger :=
  let conversation := l.conversations.nextId
  let l := { l with conversations := l.conversations.add (.start first second) }
  let l := l.modifyTracker first fun t => { t with twin := some ⟨second, conversation⟩ }
  l.modifyTracker second fun t => { t with twin := some ⟨first, conversation⟩ }

/-- Whether a tracker was ever given a twin. -/
def hasTwin (l : Ledger) (id : TrackerId) : Bool :=
  match l.tracker? id with
  | some t => t.twin.isSome
  | none => false

/-- Links two trackers unless one of them has a twin; of two such the older one is named. -/
def initTwin (l : Ledger) (first second : TrackerId) : Except StoreError Ledger :=
  if first = second then .error .selfTwin
  else if l.hasTwin (min first second) then .error (.twinAlreadySet (min first second))
  else if l.hasTwin (max first second) then .error (.twinAlreadySet (max first second))
  else .ok (l.link first second)

/-- The origin and the sink of a new channel. -/
def twins (l : Ledger) (descriptor : String) : TrackerId × TrackerId × Ledger :=
  let (input, l) := l.add (.new .origin [] (some (descriptor ++ " (in)")))
  let (output, l) := l.add (.new .sink [] (some (descriptor ++ " (out)")))
  (input, output, l.link input output)

/-- The twin of a tracker, as long as it is there. -/
def twin? (l : Ledger) (id : TrackerId) : Option TrackerId := do
  let twin ← (← l.tracker? id).twin
  let _ ← l.tracker? twin.other
  some twin.other

/-- The conversation of a tracker that has or had a twin. -/
def conversation? (l : Ledger) (id : TrackerId) : Option Conversation := do
  let twin ← (← l.tracker? id).twin
  l.conversations.get? twin.conversation

/-! ## 2. Recording -/

/-- What a range of a source is made of: of a tracker that records parts, its parts and gaps; any
other one stands for itself. -/
def stretches (l : Ledger) (source : TrackerId) (index length : Nat) : List Stretch :=
  match l.tracker? source with
  | none => [⟨length, none⟩]
  | some t =>
    if t.role.recordsParts then Parts.window index (index + length) t.parts
    else [⟨length, some ⟨source, index⟩⟩]

/-- Records that a range of a tracker came from a range of a source, or from nowhere known. -/
def setSource (l : Ledger) (id : TrackerId) (index length : Nat) (source : Option TrackerId)
    (sourceIndex : Nat) : Except StoreError Ledger :=
  match l.tracker? id with
  | none => .ok l
  | some t =>
    if t.role.recordsParts then
      if length = 0 then .ok l
      else
        let made := match source with
          | none => [⟨length, none⟩]
          | some source => l.stretches source sourceIndex length
        .ok (l.modifyTracker id fun t => { t with parts := Parts.recordAll index t.parts made })
    else .error (.immutable id t.role)

/-- The same with the source given as a point. -/
def setSourcePoint (l : Ledger) (id : TrackerId) (index length : Nat) (point : Option Point) :
    Except StoreError Ledger :=
  match point with
  | some p => l.setSource id index length (some p.tracker) p.index
  | none => l.setSource id index length none 0

/-! ## 3. Looking up -/

/-- Follows an index to the tracker it came from, over at most `depth` trackers. -/
def resolve (l : Ledger) : Nat → TrackerId → Nat → Nat → Option Point
  | 0, _, _, _ => none
  | depth + 1, id, index, length =>
    match l.tracker? id with
    | none => none
    | some t =>
      match t.role with
      | .default | .sink =>
        match Parts.sourceAt t.parts index with
        | none => none
        | some place => l.resolve depth place.source place.index length
      | .fixed => if t.length ≤ index then none else some ⟨id, index, length⟩
      | .origin | .tag => some ⟨id, index, length⟩

/-! ## 4. Trackers that nobody refers to any more -/

/-- The sources that the parts of a tracker mention. -/
def sourcesOf (l : Ledger) (id : TrackerId) : List TrackerId := (l.parts id).map Part.source

/-- All trackers that the given ones lead to over their parts, themselves included. -/
def reach (l : Ledger) : Nat → List TrackerId → List TrackerId → List TrackerId
  | 0, _, seen => seen
  | _, [], seen => seen
  | fuel + 1, id :: rest, seen =>
    if seen.contains id then l.reach fuel rest seen
    else l.reach fuel ((l.sourcesOf id).eraseDups ++ rest) (id :: seen)

/-- Keeps the given trackers and those that they lead to. -/
def retain (l : Ledger) (roots : List TrackerId) : Ledger :=
  let roots := roots.eraseDups
  let edges := roots.length + (l.trackers.ids.flatMap l.sourcesOf).length
  let seen := l.reach (edges + 1) roots []
  { l with trackers := l.trackers.retain fun id => seen.contains id }

end Ledger

end Provenance
