/-
# Objects and their trackers

Looking up and inserting are counted, and once in a number of them the entries of objects that
are gone are dropped.  While tracking is suspended nothing is looked up, inserted or counted.

Every operation is told which objects are alive (`alive`), and asks only when it purges.
-/
import Provenance.Store.Basic

namespace Provenance.Store

/-- Drops the entries of dead objects. -/
def purge (s : Store) (alive : ObjectId → Bool) : Store :=
  { s with objects := s.objects.purge alive }

/-- Counts one lookup or insertion, and purges if it is time. -/
def tick (s : Store) (alive : ObjectId → Bool) : Store :=
  if s.settings.purgeInterval = 0 then s
  else
    let s := { s with operations := s.operations + 1 }
    if s.operations % s.settings.purgeInterval = 0 then s.purge alive else s

/-- The tracker of an object, if it has one. -/
def trackerOf (s : Store) (alive : ObjectId → Bool) (o : ObjectId) : Option TrackerId × Store :=
  if s.isActive then
    let s := s.tick alive
    (s.objects.get? o, s)
  else (none, s)

/-- The tracker of an object, a new one if it has none. -/
def ensureTracker (s : Store) (alive : ObjectId → Bool) (o : ObjectId) : Option TrackerId × Store :=
  if s.isActive then
    match s.objects.get? o with
    | some id => (some id, s.tick alive)
    | none =>
      let (id, s) := s.addTracker (.new .default [] none)
      (some id, { s with objects := s.objects.insert o id }.tick alive)
  else (none, s)

/-- Gives an object a tracker in place of the one it had. -/
def setTracker (s : Store) (alive : ObjectId → Bool) (o : ObjectId) (id : TrackerId) : Store :=
  if s.isActive then { s with objects := s.objects.insert o id }.tick alive else s

/-- Forgets the tracker of an object; points into it stay as they are. -/
def resetTracker (s : Store) (o : ObjectId) : Option TrackerId × Store :=
  (s.objects.get? o, { s with objects := s.objects.remove o })

/-- Records where a range of an object came from.  An object without a tracker has nothing to
forget, so a gap gives it none. -/
def setSource (s : Store) (alive : ObjectId → Bool) (o : ObjectId) (index length : Nat)
    (source : Option TrackerId) (sourceIndex : Nat) : Except StoreError Unit × Store :=
  let write (s : Store) : Except StoreError Unit × Store :=
    match s.ensureTracker alive o with
    | (none, s) => (.ok (), s)
    | (some id, s) =>
      match s.onLedger fun l => l.setSource id index length source sourceIndex with
      | .ok s => (.ok (), s)
      | .error e => (.error e, s)
  match source with
  | some _ => write s
  | none =>
    match s.trackerOf alive o with
    | (none, s) => (.ok (), s)
    | (some _, s) => write s

/-- Where the value at an index of an object came from. -/
def pointAt (s : Store) (alive : ObjectId → Bool) (o : ObjectId) (index : Nat) :
    Option Point × Store :=
  match s.trackerOf alive o with
  | (none, s) => (none, s)
  | (some id, s) => (s.ledger.resolve s.settings.maxResolveDepth id index 1, s)

end Provenance.Store
