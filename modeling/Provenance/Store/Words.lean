/-
# The ledger in words

Indices and lengths are words of 64 bits.  A sum that leaves the words is no index any more: it
stops the program or wraps around, depending on how the program was built (`Overflow`).  Here the
operations on parts and trackers take every sum in words, in the order in which the sums arise;
`none` stands for a program that has stopped.

Parts are looked up by where they begin.  So a part is cut only if it is the last one to begin
before the range, and a part takes the place of one that begins where it does.  For parts in order
whose ranges lie within the words this comes to the same as the operations on numbers.
-/
import Provenance.Number.Numeral
import Provenance.Store.Literals
import Provenance.Store.Repository

namespace Provenance

/-- What becomes of a sum that leaves the words. -/
inductive Overflow where
  /-- The program stops. -/
  | stops
  /-- The sum is taken modulo the number of words. -/
  | wraps
  deriving DecidableEq, Repr

namespace Overflow

/-- A number as a word. -/
def word (w : Overflow) (n : Nat) : Option Nat :=
  if n < Numeral.wordBound then some n
  else match w with
    | .stops => none
    | .wraps => some (n % Numeral.wordBound)

/-- The sum of two words. -/
def add (w : Overflow) (a b : Nat) : Option Nat := w.word (a + b)

/-- The difference of two words. -/
def sub (w : Overflow) (a b : Nat) : Option Nat :=
  if b ≤ a then some (a - b)
  else match w with
    | .stops => none
    | .wraps => some (a + Numeral.wordBound - b)

end Overflow

namespace Part

/-- The first index after a part. -/
def stopIn (w : Overflow) (p : Part) : Option Nat := w.add p.start p.length

/-- Whether a part would go on in the source as the next one does. -/
def leadsTo (w : Overflow) (p next : Part) : Option Bool :=
  if p.source = next.source then (w.add p.sourceIndex p.length).map fun n => n = next.sourceIndex
  else some false

end Part

namespace Parts

/-! ## 1. Looking parts up by where they begin -/

/-- The last part that begins before an index. -/
def lastBefore? (index : Nat) (ps : List Part) : Option Part :=
  (ps.filter fun p => p.start < index).getLast?

/-- The parts that begin in a range.  A range that ends before it begins is none, which is noticed
as soon as there is anything to search. -/
def beginningIn (index stop : Nat) (ps : List Part) : Option (List Part) :=
  if stop < index && !ps.isEmpty then none
  else some (ps.filter fun p => index ≤ p.start && p.start < stop)

/-- Puts a part among parts, in the place of one that begins where it does. -/
def put (q : Part) : List Part → List Part
  | [] => [q]
  | p :: ps =>
    if p.start < q.start then p :: put q ps
    else if p.start = q.start then q :: ps
    else q :: p :: ps

/-- The entry that covers an index. -/
def entryIn (w : Overflow) (ps : List Part) (i : Nat) : Option (Option Part) :=
  match (ps.filter fun p => p.start ≤ i).getLast? with
  | none => some none
  | some p => (p.stopIn w).map fun stop => if i < stop then some p else none

/-- The first index after all parts. -/
def endIn (w : Overflow) (ps : List Part) : Option Nat :=
  match ps.getLast? with
  | none => some 0
  | some p => p.stopIn w

/-! ## 2. Overwriting a range -/

/-- What a part that reaches over an index leaves from there on, among other parts. -/
def keepTail (w : Overflow) (stop : Nat) (p : Part) (ps : List Part) : Option (List Part) :=
  (p.stopIn w).bind fun last =>
    if last ≤ stop then some ps
    else (w.add p.sourceIndex (stop - p.start)).map fun index =>
      put ⟨stop, last - stop, p.source, index⟩ ps

/-- The same for several parts, each of which goes away. -/
def keepTails (w : Overflow) (stop : Nat) : List Part → List Part → Option (List Part)
  | [], ps => some ps
  | p :: rest, ps =>
    (keepTail w stop p (ps.filter fun q => q.start ≠ p.start)).bind (keepTails w stop rest)

/-- Cuts the last part that begins before a range, if it reaches into it. -/
def cutBefore (w : Overflow) (index stop : Nat) (ps : List Part) : Option (List Part) :=
  match lastBefore? index ps with
  | none => some ps
  | some p => (p.stopIn w).bind fun last =>
    if last ≤ index then some ps
    else (keepTail w stop p ps).map (put { p with length := index - p.start })

/-- Forgets the range from `index` up to `stop`. -/
def clearIn (w : Overflow) (index stop : Nat) (ps : List Part) : Option (List Part) :=
  (cutBefore w index stop ps).bind fun ps =>
    (beginningIn index stop ps).bind fun inside => keepTails w stop inside ps

/-- A part joined with the one before it, if that one leads to it. -/
def joinBefore (w : Overflow) (q : Part) (ps : List Part) : Option Part :=
  match lastBefore? q.start ps with
  | none => some q
  | some p => (p.stopIn w).bind fun last =>
    if last = q.start then
      (p.leadsTo w q).bind fun leads =>
        if leads then (w.add p.length q.length).map fun length => { p with length } else some q
    else some q

/-- Puts a part that ends at an index among parts, joined with the one that begins there if it
leads to it. -/
def joinAfter (w : Overflow) (stop : Nat) (q : Part) (ps : List Part) : Option (List Part) :=
  match ps.find? fun p => p.start = stop with
  | none => some (put q ps)
  | some next => (q.leadsTo w next).bind fun leads =>
    if leads then
      (w.add q.length next.length).map fun length =>
        put { q with length } (ps.filter fun p => p.start ≠ stop)
    else some (put q ps)

/-- Overwrites a range with a range of a place, or with a gap. -/
def recordIn (w : Overflow) (index length : Nat) (place : Option Place) (ps : List Part) :
    Option (List Part) :=
  if length = 0 then some ps
  else (w.add index length).bind fun stop =>
    (clearIn w index stop ps).bind fun rest =>
      match place with
      | none => some rest
      | some x => (joinBefore w ⟨index, length, x.source, x.index⟩ rest).bind fun q =>
        joinAfter w stop q rest

/-! ## 3. Copying a range -/

/-- A stretch of a range, and how far into the range it begins. -/
structure Segment where
  offset : Nat
  length : Nat
  place : Option Place
  deriving DecidableEq, Repr

/-- A gap of a range that begins at `start`, if there is any. -/
def gapIn (w : Overflow) (start cursor stop : Nat) : Option (List Segment) :=
  if cursor < stop then (w.sub cursor start).map fun offset => [⟨offset, stop - cursor, none⟩]
  else some []

/-- What a range is made of from `cursor` on, if these are the parts that reach into it. -/
def segments (w : Overflow) (start stop : Nat) : Nat → List Part → Option (List Segment)
  | cursor, [] => gapIn w start cursor stop
  | cursor, p :: ps =>
    let first := max p.start cursor
    (p.stopIn w).bind fun last =>
      (gapIn w start cursor first).bind fun gap =>
        (w.sub first start).bind fun offset =>
          (w.sub (min last stop) first).bind fun length =>
            (w.add p.sourceIndex (first - p.start)).bind fun index =>
              (segments w start stop (min last stop) ps).map fun rest =>
                gap ++ ⟨offset, length, some ⟨p.source, index⟩⟩ :: rest

/-- The part that begins before an index and reaches over it. -/
def reachingOver (w : Overflow) (index : Nat) (ps : List Part) : Option (List Part) :=
  match lastBefore? index ps with
  | none => some []
  | some p => (p.stopIn w).map fun last => if index < last then [p] else []

/-- What a range is made of. -/
def windowIn (w : Overflow) (start length : Nat) (ps : List Part) : Option (List Segment) :=
  (w.add start length).bind fun stop =>
    (reachingOver w start ps).bind fun first =>
      (beginningIn start stop ps).bind fun inside => segments w start stop start (first ++ inside)

/-- Overwrites a range with segments, one after the other. -/
def recordAllIn (w : Overflow) (index : Nat) (ps : List Part) : List Segment → Option (List Part)
  | [] => some ps
  | s :: ss =>
    (w.add index s.offset).bind fun start =>
      (recordIn w start s.length s.place ps).bind fun ps => recordAllIn w index ps ss

/-- The whole ledger from `cursor` on as stretches. -/
def piecesIn (w : Overflow) (cursor : Nat) : List Part → Option (List Stretch)
  | [] => some []
  | p :: ps =>
    (p.stopIn w).bind fun stop =>
      (piecesIn w stop ps).map fun rest =>
        gap (p.start - cursor) ++ ⟨p.length, some ⟨p.source, p.sourceIndex⟩⟩ :: rest

end Parts

namespace Tracker

/-- The parts and the gaps between them. -/
def snapshotIn (w : Overflow) (t : Tracker) : Option (List Stretch) := Parts.piecesIn w 0 t.parts

/-- The length of the content, of a default tracker the end of its last part. -/
def lengthIn (w : Overflow) (t : Tracker) : Option Nat :=
  match t.role with
  | .default => Parts.endIn w t.parts
  | _ => some t.length

end Tracker

/-! ## 4. Trackers -/

namespace Ledger

/-- The parts of a tracker after a range of it was overwritten with a range of a source. -/
def copiedIn (w : Overflow) (l : Ledger) (ps : List Part) (index length : Nat)
    (source : Option TrackerId) (sourceIndex : Nat) : Option (List Part) :=
  match source with
  | none => Parts.recordIn w index length none ps
  | some s =>
    match l.tracker? s with
    | none => Parts.recordIn w index length none ps
    | some t =>
      if t.role.recordsParts then
        (Parts.windowIn w sourceIndex length t.parts).bind (Parts.recordAllIn w index ps)
      else Parts.recordIn w index length (some ⟨s, sourceIndex⟩) ps

/-- Records that a range of a tracker came from a range of a source, or from nowhere known. -/
def setSourceIn (w : Overflow) (l : Ledger) (id : TrackerId) (index length : Nat)
    (source : Option TrackerId) (sourceIndex : Nat) : Option (Except StoreError Ledger) :=
  match l.tracker? id with
  | none => some (.ok l)
  | some t =>
    if t.role.recordsParts then
      if length = 0 then some (.ok l)
      else (l.copiedIn w t.parts index length source sourceIndex).map fun parts =>
        .ok (l.modifyTracker id fun t => { t with parts })
    else some (.error (.immutable id t.role))

/-- The same with the source given as a point. -/
def setSourcePointIn (w : Overflow) (l : Ledger) (id : TrackerId) (index length : Nat)
    (point : Option Point) : Option (Except StoreError Ledger) :=
  match point with
  | some p => l.setSourceIn w id index length (some p.tracker) p.index
  | none => l.setSourceIn w id index length none 0

/-- Follows an index to the tracker it came from, over at most `depth` trackers. -/
def resolveIn (w : Overflow) (l : Ledger) : Nat → TrackerId → Nat → Nat → Option (Option Point)
  | 0, _, _, _ => some none
  | depth + 1, id, index, length =>
    match l.tracker? id with
    | none => some none
    | some t =>
      match t.role with
      | .default | .sink =>
        (Parts.entryIn w t.parts index).bind fun
          | none => some none
          | some p => (w.add p.sourceIndex (index - p.start)).bind fun index =>
            l.resolveIn w depth p.source index length
      | .fixed => some (if t.length ≤ index then none else some ⟨id, index, length⟩)
      | .origin | .tag => some (some ⟨id, index, length⟩)

end Ledger

/-! ## 5. The store -/

namespace Store

/-- Records where a range of an object came from. -/
def setSourceIn (w : Overflow) (s : Store) (alive : ObjectId → Bool) (o : ObjectId)
    (index length : Nat) (source : Option TrackerId) (sourceIndex : Nat) :
    Option (Except StoreError Unit × Store) :=
  let write (s : Store) : Option (Except StoreError Unit × Store) :=
    match s.ensureTracker alive o with
    | (none, s) => some (.ok (), s)
    | (some id, s) => (s.ledger.setSourceIn w id index length source sourceIndex).map fun
      | .ok ledger => (.ok (), { s with ledger })
      | .error e => (.error e, s)
  match source with
  | some _ => write s
  | none =>
    match s.trackerOf alive o with
    | (none, s) => some (.ok (), s)
    | (some _, s) => write s

/-- Where the value at an index of an object came from. -/
def pointAtIn (w : Overflow) (s : Store) (alive : ObjectId → Bool) (o : ObjectId) (index : Nat) :
    Option (Option Point × Store) :=
  match s.trackerOf alive o with
  | (none, s) => some (none, s)
  | (some id, s) => (s.ledger.resolveIn w s.settings.maxResolveDepth id index 1).map (·, s)

/-- The point of a range of a table. -/
def constantPointIn (w : Overflow) (s : Store) (classId offset length : Nat) :
    Option (Except StoreError Point) :=
  match s.table classId with
  | .error e => some (.error e)
  | .ok t => (w.add offset length).map fun stop =>
    let tableLength := s.ledger.length t.tracker
    if tableLength < stop then .error (.constantOutOfRange classId offset length tableLength)
    else .ok ⟨t.tracker, offset, length⟩

end Store

end Provenance
