/-
# Overwriting an element

An element that is stored together with a point should come from there afterwards, whatever was
known of it before, and nothing else known of its array should change.  That is so where the array
has a tracker that records parts, or none yet (`Work.storeWithPoint_points`).  A tracker that was
given to the array and stands for itself refuses; the refusal is passed over, and the new element is
taken to come from where the old one came.
-/
import Provenance.Proofs.ElementHistory
import Provenance.Proofs.Living
import Provenance.Proofs.Rewriting
import Provenance.Proofs.Taking

namespace Provenance

/-! ## 1. What the store knows afterwards -/

namespace Store

variable {s s' : Store} {alive : ObjectId → Bool} {o : ObjectId}

/-- What is known of an object after its element at `index` was overwritten with something that came
from a source, or from nowhere known. -/
def Overwritten (s s' : Store) (o : ObjectId) (index : Nat) (source : Option TrackerId)
    (sourceIndex : Nat) : Prop :=
  (∀ i, i ≠ index → s'.pointOf o i = s.pointOf o i) ∧
    s'.pointOf o index =
      if s.refuses o then s.pointOf o index
      else source.bind fun source => s.ledger.resolve s.settings.maxResolveDepth
        source sourceIndex 1

/-- **Overwriting an element**, with a point or without. -/
theorem setSource_overwritten (hs : s.isActive) (hl : s.ledger.Reachable)
    (hdepth : 2 ≤ s.settings.maxResolveDepth) (ho : alive o)
    (hknown : ∀ id, s.objects.get? o = some id → (s.ledger.tracker? id).isSome) (index : Nat)
    (source : Option TrackerId) (sourceIndex : Nat) :
    s.Overwritten (s.setSource alive o index 1 source sourceIndex).2 o index source
      sourceIndex := by
  obtain ⟨hrewritten, -⟩ := setSource_rewritten hs hl ho hknown index 1 source sourceIndex
  have hpoint := hrewritten.pointOf hl hdepth ho hknown fun k p hp => by
    obtain ⟨source, -, hp⟩ := Option.bind_eq_some_iff.mp hp
    exact hl.flat.standing_of_reads hp
  refine ⟨fun i hi => ?_, ?_⟩
  · rw [hpoint, if_neg (by omega)]
  · rw [hpoint]
    cases hrefuses : s.refuses o with
    | true => simp
    | false =>
      rw [if_pos ⟨.inl rfl, rfl, Nat.le_refl index, Nat.lt_succ_self index⟩,
        Nat.sub_self, Nat.add_zero]
      simp only [resolve_eq_pointTo hl hdepth, Bool.false_eq_true, if_false]
      cases source <;> rfl

end Store

/-! ## 2. Storing an element together with its point -/

namespace Work

open Provenance.Action (Wp)

variable {w : World} {L : Array Value} {S : List Value} {inUse : Thunk (List Value)}
    {array : ObjectId}

/-- A store with a point puts the value in its place and then records the point, in this order. -/
theorem wp_storeWithPoint {elem : Ty} {point : Option Point} {value : Value} {index : Int32} :
    Wp (hook inUse (.arrayStoreWithPoint elem))
      (fun _ b => ∃ i, w.heap.elementPlace array index = .ok i ∧
        b.world = { w with
          heap := w.heap.putElement array i value
          store := (w.store.setSource
            (World.alive { w with heap := w.heap.putElement array i value } inUse) array
              index.toInt.toNat 1
            (point.map Point.tracker) ((point.map Point.index).getD 0)).2 })
      (fun _ _ => True) ⟨w, L, .ofPoint point :: value :: .int index :: .ref array :: S⟩ := by
  unfold hook storeWithPoint storeWithPointBy
  refine wp_pop_bind fun p S₁ h₁ => wp_pop_bind fun v S₂ h₂ => wp_popInt_bind fun n S₃ h₃ =>
    wp_popTarget_bind fun o S₄ h₄ => wp_storeElement_bind fun i hplace =>
    wp_fromHeap_bind fun q hq => ?_
  cases h₁
  cases h₂
  cases h₃
  cases h₄
  rw [point_ofPoint] at hq
  cases hq
  exact ⟨i, hplace, rfl⟩

/-- Two arrays of chars; the first one was given an origin as its tracker. -/
def borrowed : World where
  heap := ((Heap.empty.allocate (.array .char #[.int 97, .int 98])).2.allocate
    (.array .char #[.int 99, .int 100])).2
  store := { Store.empty .default with
    ledger := (Ledger.empty.add (.new .origin [120, 121] none)).2
    objects := ⟨[(1, 1)]⟩ }
  literals := []
  held := []
  journal := []

/-- The first char of an array of `borrowed` is overwritten. -/
def overwritten (array : ObjectId) (point : Option Point) : Except RunError Unit × Bench :=
  (hook (.pure [.ref 1, .ref 2]) (.arrayStoreWithPoint .char)).outcome
    ⟨borrowed, #[], [.ofPoint point, .int 90, .int 0, .ref array]⟩

end Work

end Provenance
