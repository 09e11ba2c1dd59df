/-
# Parts: which range came from where

The ledger of an object is a list of parts.  A part says that a range of the object came from a
range of a source, index by index.  Parts are in ascending order, never empty, never overlap, and
no part continues the one before it.

* `sourceAt` reads the parts as a partial map from indices to places in sources;
* `clear` forgets a range, cutting the parts that reach over its ends;
* `record` overwrites a range, joining it with the neighbours that it continues;
* `window` lists what a range is made of, gaps included;
* `pieces` lists the whole ledger the same way, without a gap at the end.
-/
namespace Provenance

/-- Trackers are known by number. -/
abbrev TrackerId := Nat

/-- A place in a source. -/
structure Place where
  source : TrackerId
  index : Nat
  deriving DecidableEq, Repr

/-- The range from `start` of the given length came from the range of `source` at `sourceIndex`. -/
structure Part where
  start : Nat
  length : Nat
  source : TrackerId
  sourceIndex : Nat
  deriving DecidableEq, Repr

namespace Part

/-- The first index after the part. -/
def stop (p : Part) : Nat := p.start + p.length

/-- Whether the part covers an index. -/
def covers (p : Part) (i : Nat) : Bool := p.start ≤ i && i < p.stop

/-- Where the value at a covered index came from. -/
def placeOf (p : Part) (i : Nat) : Place := ⟨p.source, p.sourceIndex + (i - p.start)⟩

/-- Whether `next` stands right after the part and goes on in the same source. -/
def continuesInto (p next : Part) : Bool :=
  p.stop = next.start && p.source = next.source && p.sourceIndex + p.length = next.sourceIndex

/-- One part for two that continue each other. -/
def join (p next : Part) : Part := { p with length := p.length + next.length }

/-- What lies before an index. -/
def before (p : Part) (i : Nat) : List Part :=
  if i ≤ p.start then []
  else if p.stop ≤ i then [p]
  else [{ p with length := i - p.start }]

/-- What lies from an index on. -/
def «from» (p : Part) (i : Nat) : List Part :=
  if p.stop ≤ i then []
  else if i ≤ p.start then [p]
  else [⟨i, p.stop - i, p.source, p.sourceIndex + (i - p.start)⟩]

end Part

/-- A stretch of a range: as many indices as `length`, from a place or from nowhere known. -/
structure Stretch where
  length : Nat
  place : Option Place
  deriving DecidableEq, Repr

namespace Parts

/-- The part that covers an index. -/
def entryAt? (ps : List Part) (i : Nat) : Option Part := ps.find? fun p => p.covers i

/-- The parts as a partial map. -/
def sourceAt (ps : List Part) (i : Nat) : Option Place :=
  (entryAt? ps i).map fun p => p.placeOf i

/-- The first index after all parts. -/
def stop (ps : List Part) : Nat :=
  match ps.getLast? with
  | some p => p.stop
  | none => 0

/-- Forgets the range from `index` up to `stop`. -/
def clear (index stop : Nat) (ps : List Part) : List Part :=
  ps.flatMap fun p => p.before index ++ p.from stop

/-- Puts a part before parts that all lie after it. -/
def prepend (q : Part) : List Part → List Part
  | [] => [q]
  | p :: ps => if q.continuesInto p then q.join p :: ps else q :: p :: ps

/-- Puts a part where no other part lies. -/
def insert (q : Part) : List Part → List Part
  | [] => [q]
  | p :: ps =>
    if p.start < q.start then
      if p.continuesInto q then prepend (p.join q) ps else p :: insert q ps
    else prepend q (p :: ps)

/-- Overwrites a range with a range of a place, or with a gap. -/
def record (index length : Nat) (place : Option Place) (ps : List Part) : List Part :=
  if length = 0 then ps
  else
    let rest := clear index (index + length) ps
    match place with
    | none => rest
    | some place => insert ⟨index, length, place.source, place.index⟩ rest

/-- A gap of a length, if there is any. -/
def gap (length : Nat) : List Stretch := if length = 0 then [] else [⟨length, none⟩]

/-- What the range from `cursor` up to `stop` is made of. -/
def window (cursor stop : Nat) : List Part → List Stretch
  | [] => gap (stop - cursor)
  | p :: ps =>
    if p.stop ≤ cursor then window cursor stop ps
    else if stop ≤ p.start then gap (stop - cursor)
    else
      let first := max p.start cursor
      let last := min p.stop stop
      gap (first - cursor) ++ ⟨last - first, some (p.placeOf first)⟩ :: window last stop ps

/-- Overwrites a range with stretches, one after the other. -/
def recordAll (index : Nat) (ps : List Part) : List Stretch → List Part
  | [] => ps
  | s :: ss => recordAll (index + s.length) (record index s.length s.place ps) ss

/-- The whole ledger from `cursor` on as stretches. -/
def pieces (cursor : Nat) : List Part → List Stretch
  | [] => []
  | p :: ps =>
    gap (p.start - cursor) ++ ⟨p.length, some ⟨p.source, p.sourceIndex⟩⟩ :: pieces p.stop ps

end Parts

end Provenance
