/-
# Moving a range of an array

A bulk copy moves elements and what is known of them together (`Work.arrayCopy_moves`), both as if
by way of a copy: the two ranges may overlap in one array, in either direction.  It is possible just
when both objects are arrays of one type, no number is negative and both ranges lie within their
arrays (`BulkCopy.Possible`); else nothing at all changes.

What an array knows stands in its tracker, and two arrays may have been given one.  Then the other
one knows the same of the range afterwards, although none of its elements moved.  An array that was
given a tracker that stands for itself takes the elements and keeps what was known.
-/
import Provenance.Proofs.ElementHistory
import Provenance.Proofs.Living
import Provenance.Proofs.Rewriting
import Provenance.Proofs.Taking

namespace Provenance

/-! ## 1. What is asked for -/

/-- What a bulk copy is asked to do. -/
structure BulkCopy where
  source : ObjectId
  position : Int32
  target : ObjectId
  targetPosition : Int32
  length : Int32
  deriving DecidableEq, Repr

namespace BulkCopy

variable {c : BulkCopy} {h h' : Heap}

/-- The operands, the deepest first. -/
def operands (c : BulkCopy) : List Value :=
  [.ref c.source, .int c.position, .ref c.target, .int c.targetPosition, .int c.length]

/-- A stack with the operands on top. -/
def stacked (c : BulkCopy) (rest : List Value) : List Value := c.operands.reverse ++ rest

/-- Whether an index of the target is written to. -/
def Hits (c : BulkCopy) (i : Nat) : Prop :=
  c.targetPosition.toInt.toNat ≤ i ∧ i < c.targetPosition.toInt.toNat + c.length.toInt.toNat

instance (c : BulkCopy) (i : Nat) : Decidable (c.Hits i) := inferInstanceAs (Decidable (_ ∧ _))

/-- The index of the source that an index of the target is taken from. -/
def origin (c : BulkCopy) (i : Nat) : Nat :=
  c.position.toInt.toNat + (i - c.targetPosition.toInt.toNat)

/-- A range given by two ints lies within a size. -/
def Within (start length : Int32) (size : Nat) : Prop :=
  0 ≤ start.toInt ∧ 0 ≤ length.toInt ∧ start.toInt + length.toInt ≤ size

instance (start length : Int32) (size : Nat) : Decidable (Within start length size) :=
  inferInstanceAs (Decidable (_ ∧ _))

/-- Both objects are arrays of one type, and both ranges lie within them. -/
def Possible (c : BulkCopy) (h : Heap) : Prop :=
  ∃ elem values targetValues, h.object c.source = .array elem values ∧
    h.object c.target = .array elem targetValues ∧ Within c.position c.length values.size ∧
    Within c.targetPosition c.length targetValues.size

/-- The stack tells what is asked for. -/
theorem stacked_injective {c c' : BulkCopy} {rest rest' : List Value}
    (h : c.stacked rest = c'.stacked rest') :
    c = c' := by
  cases c
  cases c'
  simp only [stacked, operands, List.reverse_cons, List.reverse_nil, List.nil_append,
    List.cons_append, List.cons.injEq, Value.ref.injEq, Value.int.injEq] at h
  obtain ⟨rfl, rfl, rfl, rfl, rfl, -⟩ := h
  rfl

theorem stacked_of_take {c : BulkCopy} {stack : List Value}
    (h : (stack.take 5).reverse = c.operands) :
    stack = c.stacked (stack.drop 5) := by
  rw [stacked, ← h, List.reverse_reverse, List.take_append_drop]

theorem take_stacked (c : BulkCopy) (rest : List Value) :
    ((c.stacked rest).take 5).reverse = c.operands := rfl

theorem rangeStart_of_within {start length : Int32} {size : Nat} (h : Within start length size) :
    Heap.rangeStart start length size = .ok start.toInt.toNat := by
  unfold Within at h
  unfold Heap.rangeStart
  rw [if_pos h]

theorem within_of_rangeStart {start length : Int32} {size i : Nat}
    (h : Heap.rangeStart start length size = .ok i) : Within start length size := by
  unfold Heap.rangeStart at h
  split at h
  · assumption
  · cases h

/-- A copy that is possible succeeds. -/
theorem Possible.copyRange (hc : c.Possible h) :
    ∃ h', h.copyRange c.source c.position c.target c.targetPosition c.length = .ok h' := by
  obtain ⟨elem, values, targetValues, hsource, htarget, hrange, htargetRange⟩ := hc
  unfold Heap.copyRange
  simp only [hsource, htarget, if_true, rangeStart_of_within hrange,
    rangeStart_of_within htargetRange]
  exact ⟨_, rfl⟩

/-- The array that the target is afterwards. -/
theorem getElem?_moved {values targetValues : Array Value}
    (hsource : Within c.position c.length values.size)
    (htarget : Within c.targetPosition c.length targetValues.size) (i : Nat) :
    (Heap.overwrite targetValues c.targetPosition.toInt.toNat (values.extract c.position.toInt.toNat
        (c.position.toInt.toNat + c.length.toInt.toNat)).toList)[i]? =
      if c.Hits i then values[c.origin i]? else targetValues[i]? := by
  unfold Within at hsource htarget
  have hlength : (values.extract c.position.toInt.toNat
      (c.position.toInt.toNat + c.length.toInt.toNat)).toList.length = c.length.toInt.toNat := by
    rw [Array.length_toList, Array.size_extract]
    omega
  rw [Heap.getElem?_overwrite _ _ _ _ (by rw [hlength]; omega), hlength]
  by_cases hhits : c.Hits i
  · rw [if_pos hhits]
    unfold Hits at hhits
    rw [if_pos hhits, Array.getElem?_toList, Array.getElem?_extract, if_pos (by omega)]
    rfl
  · rw [if_neg hhits]
    exact if_neg hhits

/-- **The elements move**: a copy that succeeds was possible, and the target takes the range over as
the source had it before. -/
theorem copyRange_moves
    (hcopy : h.copyRange c.source c.position c.target c.targetPosition c.length = .ok h') :
    c.Possible h ∧
    (∃ elem values targetValues targetValues', h.object c.source = .array elem values ∧
      h.object c.target = .array elem targetValues ∧
      h'.object c.target = .array elem targetValues' ∧
      ∀ i, targetValues'[i]? = if c.Hits i then values[c.origin i]? else targetValues[i]?) ∧
    ∀ a, a ≠ c.target → h'.objects.get? a = h.objects.get? a := by
  unfold Heap.copyRange at hcopy
  split at hcopy
  · rename_i elem values targetElem targetValues hsource htarget
    split at hcopy
    · rename_i helem
      subst helem
      split at hcopy
      · cases hcopy
      · rename_i start hstart
        split at hcopy
        · cases hcopy
        · rename_i targetStart htargetStart
          obtain rfl := Except.ok.inj hcopy
          have hrange := within_of_rangeStart hstart
          have htargetRange := within_of_rangeStart htargetStart
          obtain ⟨rfl, -⟩ := Heap.rangeStart_eq_ok hstart
          obtain ⟨rfl, -⟩ := Heap.rangeStart_eq_ok htargetStart
          refine ⟨⟨elem, values, targetValues, hsource, htarget, hrange, htargetRange⟩,
            ⟨elem, values, targetValues, _, hsource, htarget, ?_,
              getElem?_moved hrange htargetRange⟩,
            fun a ha => ?_⟩
          · simp only [Heap.modify, Heap.object, Table.get?_modify, if_true,
              Heap.get?_of_object htarget, Option.map_some, Option.getD_some]
          · simp only [Heap.modify, Table.get?_modify, if_neg (Ne.symm ha)]
    · cases hcopy
  · cases hcopy
  · cases hcopy

end BulkCopy

/-! ## 2. What is known of the elements -/

namespace Store

variable {s : Store} {alive : ObjectId → Bool} {source target : ObjectId}

/-- The tracker of the source is looked up, and then the range of the target is recorded. -/
theorem copySource_rewritten (hs : s.isActive) (hl : s.ledger.Reachable) (hsource : alive source)
    (htarget : alive target)
    (hknown : ∀ a id, s.objects.get? a = some id → (s.ledger.tracker? id).isSome)
    (start length position : Nat) :
    Rewritten alive s ((s.trackerOf alive source).2.setSource alive target start length
        (s.trackerOf alive source).1 position).2 target start length
      fun k => s.placeOf source (position + k) := by
  have hticked := alike_tick s alive
  unfold trackerOf
  rw [if_pos hs]
  obtain ⟨hrewritten, -⟩ := setSource_rewritten (s := s.tick alive) (hticked.isActive ▸ hs)
    (hticked.ledger ▸ hl) htarget
    (fun id hid => hticked.ledger ▸ hknown target id ((hticked.tracker target htarget).trans hid))
    start length ((s.tick alive).objects.get? source) position
  rw [← hticked.tracker source hsource, ← hticked.ledger] at hrewritten
  simp only [← hticked.tracker source hsource]
  exact hrewritten.of_alike hticked htarget

end Store

/-- What a bulk copy brings about. -/
structure World.Moved (w w' : World) (inUse : Thunk (List Value)) (c : BulkCopy) : Prop where
  elements : ∃ elem values targetValues targetValues', w.heap.object c.source = .array elem values ∧
    w.heap.object c.target = .array elem targetValues ∧
    w'.heap.object c.target = .array elem targetValues' ∧
    ∀ i, targetValues'[i]? = if c.Hits i then values[c.origin i]? else targetValues[i]?
  others : ∀ a, a ≠ c.target → w'.heap.objects.get? a = w.heap.objects.get? a
  /-- The target, and whoever has one tracker with it, knows of the range what the source knew. -/
  points : ∀ a, .ref a ∈ inUse.get → (w.heap.objects.get? a).isSome → ∀ i,
    (w'.store.pointAt (w'.alive inUse) a i).1 =
      if (a = c.target ∨ w.store.Shares a c.target) ∧
        w.store.refuses c.target = false ∧ c.Hits i then
        (w.store.pointAt (w.alive inUse) c.source (c.origin i)).1
      else (w.store.pointAt (w.alive inUse) a i).1

/-! ## 3. The hook -/

namespace Work

open Provenance.Action (Wp)

variable {w : World} {L : Array Value} {stack : List Value} {inUse : Thunk (List Value)} {b : Bench}

theorem wp_fromHeap_or {α β : Type} {g : Heap → Except RunError α} {f : α → Work β}
    {R : β → Bench → Prop} {E : RunError → Bench → Prop}
    (h : ∀ a, g b.world.heap = .ok a → Wp (f a) R E b) (he : ∀ e, E e b) :
    Wp (fromHeap g >>= f) R E b := by
  rw [Action.wp_bind, wp_fromHeap]
  split
  · exact h _ ‹_›
  · exact he _

/-- Operands that ask for no copy: the hook fails and changes nothing. -/
theorem wp_copyArray_other {operands : List Value} (hother : ∀ c, operands ≠ BulkCopy.operands c) :
    Wp (copyArray inUse operands) (fun _ _ => False) (fun _ b' => b' = b) b := by
  unfold copyArray copyArrayBy
  split
  · refine wp_fromHeap_or (fun o ho => wp_fromHeap_or (fun t ht => wp_fromHeap_or (fun p hp =>
      wp_fromHeap_or (fun q hq => wp_fromHeap_or (fun n hn => ?_) fun _ => rfl)
        fun _ => rfl) fun _ => rfl)
      fun _ => rfl) fun _ => rfl
    refine absurd ?_ (hother ⟨o, p, t, q, n⟩)
    rw [Heap.target_eq_ok ho, Heap.target_eq_ok ht, Heap.int_eq_ok hp, Heap.int_eq_ok hq,
      Heap.int_eq_ok hn]
    rfl
  · rfl

/-- A copy is made in the heap first and in the store then, or it fails and changes nothing. -/
theorem wp_copyArray (c : BulkCopy) :
    Wp (copyArray inUse c.operands)
      (fun _ b' => ∃ heap,
        b.world.heap.copyRange c.source c.position c.target c.targetPosition c.length = .ok heap ∧
        ∃ alive, alive = World.alive { b.world with heap } inUse ∧ b'.world = { b.world with
          heap
          store := ((b.world.store.trackerOf alive c.source).2.setSource alive c.target
            c.targetPosition.toInt.toNat c.length.toInt.toNat
            (b.world.store.trackerOf alive c.source).1 c.position.toInt.toNat).2 })
      (fun _ b' => b' = b ∧ ¬ c.Possible b.world.heap) b := by
  unfold copyArray copyArrayBy BulkCopy.operands
  simp only [Action.wp_bind, wp_fromHeap, Heap.target, Heap.reference, Heap.int,
    changeHeap, wp_onHeap]
  split
  · rename_i heap hcopy
    exact ⟨heap, hcopy, _, rfl, rfl⟩
  · rename_i e hcopy
    refine ⟨trivial, fun hpossible => ?_⟩
    obtain ⟨heap, hheap⟩ := hpossible.copyRange
    rw [hheap] at hcopy
    cases hcopy

/-- **Moving a range.** -/
theorem copyArray_moved (hactive : w.store.isActive) (hdepth : 2 ≤ w.store.settings.maxResolveDepth)
    (hledger : w.store.ledger.Reachable)
    (hknown : ∀ a id, w.store.objects.get? a = some id → (w.store.ledger.tracker? id).isSome)
    {c : BulkCopy} (hsource : .ref c.source ∈ inUse.get)
    (htarget : .ref c.target ∈ inUse.get) {heap : Heap}
    (hcopy : w.heap.copyRange c.source c.position c.target c.targetPosition c.length = .ok heap)
    {alive : ObjectId → Bool} (halive : alive = World.alive { w with heap } inUse) {w' : World}
    (hw' : w' = { w with
      heap
      store := ((w.store.trackerOf alive c.source).2.setSource alive c.target
        c.targetPosition.toInt.toNat c.length.toInt.toNat (w.store.trackerOf alive c.source).1
        c.position.toInt.toNat).2 }) : w.Moved w' inUse c := by
  obtain ⟨-, helements, hothers⟩ := BulkCopy.copyRange_moves hcopy
  have hthere : ∀ a, (w.heap.objects.get? a).isSome → (heap.objects.get? a).isSome := by
    intro a ha
    by_cases hat : a = c.target
    · obtain ⟨_, _, _, _, -, -, hafter, -⟩ := helements
      rw [hat, Heap.get?_of_object hafter]
      rfl
    · rwa [hothers a hat]
  have hlives : ∀ a, .ref a ∈ inUse.get → (w.heap.objects.get? a).isSome → alive a = true := by
    intro a hinUse ha
    rw [halive]
    exact World.alive_of_inUse (hthere a ha) hinUse
  obtain ⟨elem, values, targetValues, -, hvalues, htargetValues, -, -⟩ := id helements
  have hsourceThere : (w.heap.objects.get? c.source).isSome := by
    rw [Heap.get?_of_object hvalues]
    rfl
  have htargetThere : (w.heap.objects.get? c.target).isSome := by
    rw [Heap.get?_of_object htargetValues]
    rfl
  have hrewritten := Store.copySource_rewritten hactive hledger (hlives _ hsource hsourceThere)
    (hlives _ htarget htargetThere) hknown c.targetPosition.toInt.toNat c.length.toInt.toNat
    c.position.toInt.toNat
  have hstore := congrArg World.store hw'
  have hheap := congrArg World.heap hw'
  simp only at hstore hheap
  rw [← hstore] at hrewritten
  refine ⟨hheap ▸ helements, hheap ▸ hothers, fun a hinUse ha i => ?_⟩
  have hbefore : w.alive inUse a = true := World.alive_of_inUse ha hinUse
  have hafter : w'.alive inUse a = true := World.alive_of_inUse (hheap ▸ hthere a ha) hinUse
  have hpoint := hrewritten.pointOf hledger hdepth (hlives a hinUse ha) (hknown a) (fun k p hp => by
    obtain ⟨id, -, hp⟩ := Option.bind_eq_some_iff.mp hp
    exact hledger.flat.standing_of_reads hp) i
  rw [Store.pointAt_eq (hrewritten.isActive.trans hactive) hafter, Store.pointAt_eq hactive hbefore,
    Store.pointAt_eq hactive (World.alive_of_inUse hsourceThere hsource), hpoint,
    Store.pointOf_eq hledger hdepth c.source]
  rfl

/-- What the hook comes to. -/
theorem wp_arrayCopy_moved (hactive : w.store.isActive)
    (hdepth : 2 ≤ w.store.settings.maxResolveDepth) (hledger : w.store.ledger.Reachable)
    (hknown : ∀ a id, w.store.objects.get? a = some id → (w.store.ledger.tracker? id).isSome)
    (hinUse : ∀ a, .ref a ∈ stack → .ref a ∈ inUse.get) :
    Wp (hook inUse .arrayCopy)
      (fun _ b' => ∃ c rest, stack = BulkCopy.stacked c rest ∧ c.Possible w.heap ∧
        w.Moved b'.world inUse c)
      (fun _ b' => b'.world = w ∧ ∀ c rest, stack = BulkCopy.stacked c rest → ¬ c.Possible w.heap)
      ⟨w, L, stack⟩ := by
  unfold hook
  rw [Action.wp_bind, wp_popMany]
  split
  · rename_i hshort
    refine ⟨rfl, fun c rest hstack => ?_⟩
    rw [hstack] at hshort
    simp [BulkCopy.stacked, BulkCopy.operands] at hshort
    omega
  · by_cases hasked : ∃ c, (stack.take 5).reverse = BulkCopy.operands c
    · obtain ⟨c, hc⟩ := hasked
      have hstack := BulkCopy.stacked_of_take hc
      have hoperand : ∀ v ∈ c.operands, v ∈ stack := by
        intro v hv
        rw [hstack, BulkCopy.stacked]
        exact List.mem_append_left _ (List.mem_reverse.mpr hv)
      rw [hc]
      refine (wp_copyArray c).mono (fun _ b' h => ?_) fun _ b' h => ?_
      · obtain ⟨heap, hcopy, alive, halive, hworld⟩ := h
        refine ⟨c, _, hstack, (BulkCopy.copyRange_moves hcopy).1, ?_⟩
        exact copyArray_moved hactive hdepth hledger hknown
          (hinUse _ (hoperand _ (by simp [BulkCopy.operands])))
          (hinUse _ (hoperand _ (by simp [BulkCopy.operands]))) hcopy halive hworld
      · obtain ⟨rfl, hpossible⟩ := h
        refine ⟨rfl, fun c' rest hstack' => ?_⟩
        rw [← BulkCopy.stacked_injective (hstack.symm.trans hstack')]
        exact hpossible
    · refine (wp_copyArray_other fun c hc => hasked ⟨c, hc⟩).mono (fun _ _ h => h.elim)
        fun _ b' h => ?_
      refine ⟨by rw [h], fun c rest hstack => ?_⟩
      exact absurd ⟨c, by rw [hstack, BulkCopy.take_stacked]⟩ hasked

/-- Two arrays of chars with one tracker, in which the first char came from an origin. -/
def sharing : World where
  heap := ((Heap.empty.allocate (.array .char #[.int 97, .int 98])).2.allocate
    (.array .char #[.int 99, .int 100])).2
  store := { Store.empty .default with
    ledger := ⟨⟨#[some (.new .origin [120, 121] none),
      some { Tracker.new .default [] none with parts := [⟨0, 1, 1, 0⟩] }]⟩, .empty⟩
    objects := ⟨[(1, 2), (2, 2)]⟩ }
  literals := []
  held := []
  journal := []

/-- The arrays of `sharing` are in use while something is copied. -/
def copied (c : BulkCopy) : Except RunError Unit × Bench :=
  (hook (.pure [.ref 1, .ref 2]) .arrayCopy).outcome ⟨sharing, #[], c.stacked []⟩

/-- Where an element of an array of a world came from. -/
def knownIn (w : World) (a : ObjectId) (i : Nat) : Option Point :=
  (w.store.pointAt (w.alive (.pure [.ref 1, .ref 2])) a i).1

end Work

end Provenance
