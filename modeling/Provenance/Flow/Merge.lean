/-
# Values that meet

Where several ways join, the values that arrive in one slot are merged.  A merge is named by its
slot, and its members are kept apart, in an index, so that it can grow while the analysis comes
by again.

* `merge` merges two values in a slot: one of them may cover the other, they may become members of
  the slot, or nothing is known of the result;
* `trackable` decides in the end whether a value can be followed: every merge it leads to must
  have members, each made by an instruction and itself trackable, and must not lead back to itself.
-/
import Provenance.Flow.Value

namespace Provenance

/-- The members of each merge. -/
structure MergeIndex where
  entries : List (MergeSlot × List FlowValue)
  deriving DecidableEq, Repr, Inhabited

/-- Decisions about merges, once made. -/
abbrev TrackMemo := List (MergeSlot × Bool)

namespace MergeIndex

def empty : MergeIndex := ⟨[]⟩

def members (x : MergeIndex) (slot : MergeSlot) : List FlowValue := (x.entries.lookup slot).getD []

def remove (x : MergeIndex) (slot : MergeSlot) : MergeIndex :=
  ⟨x.entries.filter fun e => e.1 ≠ slot⟩

/-- Gives a slot its members. -/
def put (x : MergeIndex) (slot : MergeSlot) (members : List FlowValue) : MergeIndex :=
  ⟨(slot, members) :: (x.remove slot).entries⟩

def size (x : MergeIndex) : Nat := x.entries.length

/-- All slots with their members, in ascending order. -/
def sorted (x : MergeIndex) : List (MergeSlot × List FlowValue) :=
  x.entries.mergeSort fun a b => MergeSlot.le a.1 b.1

/-! ## 1. Merging -/

/-- Whether the first value stands for the second as well: it is a merge that has the second, or
all members of the second, among its members, or both were moved or converted by the same
instruction and it is so for what was moved. -/
def covers (x : MergeIndex) : FlowValue → FlowValue → Bool
  | .copy i a, .copy j b => i = j && (a = b || x.covers a b)
  | .cast s i a, .cast t j b => i = j && s = t && (a = b || x.covers a b)
  | .merged _ slot, v =>
    (x.members slot).contains v ||
      match v with
      | .merged _ other =>
        !(x.members other).isEmpty && (x.members other).all fun m => (x.members slot).contains m
      | _ => false
  | _, _ => false

/-- Whichever of two values stands for the other. -/
def covering? (x : MergeIndex) (a b : FlowValue) : Option FlowValue :=
  if a = b || x.covers a b then some a
  else if x.covers b a then some b
  else none

/-- Adds a value to members; the first member that covers it, or that it covers, gives way to
whichever covers the other. -/
def absorb (x : MergeIndex) (v : FlowValue) : List FlowValue → List FlowValue
  | [] => [v]
  | m :: ms =>
    match x.covering? m v with
    | some c => c :: ms
    | none => m :: x.absorb v ms

/-- Whether a value is the merge of a slot. -/
def isHere (slot : MergeSlot) : FlowValue → Bool
  | .merged _ s => s = slot
  | _ => false

/-- Whether a value is the merge of another slot. -/
def isElsewhere (slot : MergeSlot) : FlowValue → Bool
  | .merged _ s => s ≠ slot
  | _ => false

/-- Adds two values to the members of a slot.  A slot that has members takes no merge of another
slot.  While members are compared, those of the slot itself are out of sight. -/
def mergeAt? (x : MergeIndex) (slot : MergeSlot) (a b : FlowValue) : Option MergeIndex :=
  let arriving := [a, b].filter fun v => !isHere slot v
  match x.members slot with
  | [] => some (x.put slot arriving)
  | members =>
    if isElsewhere slot a || isElsewhere slot b then none
    else
      let others := x.remove slot
      some (x.put slot (arriving.foldl (fun ms v => others.absorb v ms) members))

/-- Merges two values that meet in a slot. -/
def merge (x : MergeIndex) (slot : MergeSlot) (a b : FlowValue) : FlowValue × MergeIndex :=
  if a = b then (a, x)
  else
    let ty := mergeTypes a.ty? b.ty?
    if a.mayBeTrackable && b.mayBeTrackable then
      match x.covering? a b with
      | some v => (v, x)
      | none =>
        match ty with
        | none => (.untrackable ty, x)
        | some t =>
          match x.mergeAt? slot a b with
          | some x' => (.merged t slot, x')
          | none => (.untrackable ty, x)
    else (.untrackable ty, x)

/-! ## 2. Trackability -/

/-- Whether every value passes a test that may use and extend the decisions made so far; stops at
the first that does not. -/
def allWith (test : FlowValue → TrackMemo → Bool × TrackMemo) :
    List FlowValue → TrackMemo → Bool × TrackMemo
  | [], memo => (true, memo)
  | v :: vs, memo =>
    match test v memo with
    | (true, memo) => allWith test vs memo
    | (false, memo) => (false, memo)

/-- Whether a value can be followed, below the merges that are being looked at.  At most `fuel`
merges lie below each other. -/
def trackableFrom (x : MergeIndex) : Nat → List MergeSlot → FlowValue → TrackMemo → Bool × TrackMemo
  | fuel, visiting, v, memo =>
    match v.base with
    | .untrackable _ => (false, memo)
    | .merged _ slot =>
      match memo.lookup slot with
      | some known => (known, memo)
      | none =>
        if visiting.contains slot then (false, memo)
        else match fuel with
          | 0 => (false, memo)
          | fuel + 1 =>
            let test (m : FlowValue) (memo : TrackMemo) : Bool × TrackMemo :=
              if m.creation?.isSome then x.trackableFrom fuel (slot :: visiting) m memo
              else (false, memo)
            let (every, memo) := allWith test (x.members slot) memo
            let result := !(x.members slot).isEmpty && every
            (result, (slot, result) :: memo)
    | _ => (true, memo)

/-- Whether a value can be followed, with decisions kept over several questions.  The merges that
lie below each other are different and have members, all but perhaps the last. -/
def trackable (x : MergeIndex) (v : FlowValue) (memo : TrackMemo) : Bool × TrackMemo :=
  x.trackableFrom (x.size + 1) [] v memo

/-- Whether a value can be followed. -/
def isTrackable (x : MergeIndex) (v : FlowValue) : Bool := (x.trackable v []).1

end MergeIndex

end Provenance
