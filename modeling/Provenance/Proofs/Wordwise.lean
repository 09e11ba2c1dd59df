/-
# Ledgers in words

A call that records a range names where the range begins, how long it is, and where the range of the
source begins.  If both ranges end within the words (`Ledger.Ranged`), recording in words comes to
the same as recording on numbers, and leaves a ledger of which this holds again (`setSourceIn_eq`,
`InWords.setSource`).  So what holds of every ledger on numbers holds of every ledger to which such
calls lead (`Ledger.ReachableIn`), whatever becomes of sums that leave the words.

So recording in words is a pointwise update (`setSource_pointwise`).  A range that ends beyond the
words is another matter: then there may be no ledger afterwards, or one in which nothing is found at
the index that was recorded (`setSourceIn_beyond`).
-/
import Provenance.Proofs.Bounded
import Provenance.Proofs.Recording

namespace Provenance.Ledger

open Numeral (wordBound)

variable {w : Overflow} {l l' : Ledger} {id : TrackerId} {index length sourceIndex : Nat}
  {source : Option TrackerId}

/-! ## 1. Ranges within the words -/

/-- The range that a call overwrites, and the range of the source, end within the words. -/
structure Ranged (index length : Nat) (source : Option TrackerId) (sourceIndex : Nat) : Prop where
  stop : index + length < wordBound
  source : source.isSome → sourceIndex + length < wordBound

/-- The parts of all trackers, and their ranges in the sources, end within the words. -/
def InWords (l : Ledger) : Prop := ∀ id t, l.tracker? id = some t → Parts.Fit t.parts

namespace InWords

theorem empty : InWords .empty := fun id t ht => by simp [tracker?, Ledger.empty] at ht

theorem add (h : l.InWords) (role : Role) (content : List UInt8) (descriptor : Option String) :
    (l.add (.new role content descriptor)).2.InWords := by
  intro id t ht
  rw [tracker?_add] at ht
  split at ht
  · cases ht
    exact List.forall_mem_nil _
  · exact h id t ht

theorem alike (h : l.InWords) (hl' : l.Alike l') : l'.InWords := by
  intro id t' ht'
  obtain ⟨t, ht, hsame⟩ := hl'.tracker ht'
  have hparts : t.parts = t'.parts := congrArg (·.2.1) hsame
  exact hparts ▸ h id t ht

/-- What a copy writes has its places within the words. -/
theorem copied (h : l.InWords) (hrange : Ranged index length source sourceIndex) :
    Parts.PlacesFit (l.copied source sourceIndex length) := by
  unfold Ledger.copied
  cases source with
  | none => exact List.forall_mem_singleton.mpr fun x hx => absurd hx (by simp)
  | some s =>
    have hsource := hrange.source rfl
    simp only [stretches]
    split
    · exact List.forall_mem_singleton.mpr fun x hx => absurd hx (by simp)
    · rename_i t ht
      split
      · exact (h s t ht).window
      · exact List.forall_mem_singleton.mpr fun x hx => by cases hx; exact hsource

end InWords

theorem extent_copied (hl : l.Ordered) (source : Option TrackerId) (sourceIndex length : Nat) :
    Parts.extent (l.copied source sourceIndex length) = length := by
  cases source with
  | none => simp [copied]
  | some s => exact (placeAt_stretches hl s sourceIndex length).1

theorem Ordered.setSource (hl : l.Ordered)
    (hset : l.setSource id index length source sourceIndex = .ok l') : l'.Ordered := by
  obtain rfl | ⟨t, ht, -, rfl⟩ := setSource_cases hset
  · exact hl
  intro other t' ht'
  rw [tracker?_modifyTracker] at ht'
  split at ht'
  · obtain ⟨t₀, ht₀, rfl⟩ := Option.map_eq_some_iff.mp ht'
    exact (hl other t₀ ht₀).recordAll _ index
  · exact hl other t' ht'

/-- **Recording a range keeps a ledger in words.** -/
theorem InWords.setSource (h : l.InWords) (hl : l.Ordered)
    (hrange : Ranged index length source sourceIndex)
    (hset : l.setSource id index length source sourceIndex = .ok l') : l'.InWords := by
  obtain rfl | ⟨t, ht, -, rfl⟩ := setSource_cases hset
  · exact h
  intro other t' ht'
  rw [tracker?_modifyTracker] at ht'
  split at ht'
  · obtain ⟨t₀, ht₀, rfl⟩ := Option.map_eq_some_iff.mp ht'
    exact Parts.Fit.recordAll (h other t₀ ht₀) (by rw [extent_copied hl]; exact hrange.stop)
      (h.copied hrange)
  · exact h other t' ht'

/-! ## 2. Recording and looking up -/

/-- What a copy of a range leaves of the parts of a tracker. -/
theorem copiedIn_eq (h : l.InWords) (hl : l.Ordered)
    (hrange : Ranged index length source sourceIndex) {ps : List Part} (hps : Parts.Ordered ps)
    (hfits : Parts.Fit ps) :
    l.copiedIn w ps index length source sourceIndex =
      some (Parts.recordAll index ps (l.copied source sourceIndex length)) := by
  have hnone : Parts.PlaceFits length none := fun x hx => absurd hx (by simp)
  unfold copiedIn Ledger.copied
  cases source with
  | none => exact Parts.recordIn_eq hps hfits hrange.stop hnone
  | some s =>
    have hsource := hrange.source rfl
    have hextent := extent_copied hl (some s) sourceIndex length
    have hplaces := h.copied hrange
    simp only [Ledger.copied, stretches] at hextent hplaces ⊢
    cases ht : l.tracker? s with
    | none => exact Parts.recordIn_eq hps hfits hrange.stop hnone
    | some t =>
      simp only [ht] at hextent hplaces ⊢
      by_cases hrole : t.role.recordsParts = true
      · simp only [hrole, if_true] at hextent hplaces ⊢
        rw [Parts.windowIn_eq (hl s t ht) (h s t ht) hsource, Option.bind_some]
        have hstop : index + 0 + length < wordBound := hrange.stop
        exact Parts.recordAllIn_eq hps hfits (by rw [hextent]; exact hstop) hplaces
      · simp only [if_neg hrole]
        exact Parts.recordIn_eq hps hfits hrange.stop fun x hx => by cases hx; exact hsource

/-- A change of a tracker depends on what it does to that tracker. -/
theorem modifyTracker_congr {t : Tracker} (ht : l.tracker? id = some t) {f g : Tracker → Tracker}
    (h : f t = g t) : l.modifyTracker id f = l.modifyTracker id g := by
  unfold modifyTracker
  congr 1
  unfold tracker? at ht
  cases id with
  | zero => rfl
  | succ n =>
    simp only [Table.get?, Option.join_eq_some_iff] at ht
    refine congrArg Table.mk (Array.ext_getElem? fun i => ?_)
    simp only [Array.getElem?_modify]
    split
    · rename_i hi
      subst hi
      rw [ht, Option.map_some, Option.map_some, Option.map_some, Option.map_some, h]
    · rfl

/-- **Recording in words** is recording, as long as the ranges end within them. -/
theorem setSourceIn_eq (h : l.InWords) (hl : l.Ordered)
    (hrange : Ranged index length source sourceIndex) :
    l.setSourceIn w id index length source sourceIndex =
      some (l.setSource id index length source sourceIndex) := by
  unfold setSourceIn setSource
  cases ht : l.tracker? id with
  | none => rfl
  | some t =>
    simp only
    split
    · split
      · rfl
      · rw [copiedIn_eq h hl hrange (hl id t ht) (h id t ht), Option.map_some]
        refine congrArg (fun l' => some (Except.ok l')) (modifyTracker_congr ht ?_)
        cases source <;> rfl
    · rfl

/-- **Following an index in words** is following it, as long as the parts lie within them. -/
theorem resolveIn_eq (h : l.InWords) (hl : l.Ordered) : ∀ (depth : Nat) (id index length : Nat),
    l.resolveIn w depth id index length = some (l.resolve depth id index length)
  | 0, _, _, _ => rfl
  | depth + 1, id, index, length => by
    unfold resolveIn resolve
    cases ht : l.tracker? id with
    | none => rfl
    | some t =>
      simp only
      cases t.role with
      | default | sink =>
        simp only [Parts.entryIn_eq (hl id t ht) (h id t ht), Option.bind_some, Parts.sourceAt]
        cases hp : Parts.entryAt? t.parts index with
        | none => rfl
        | some p =>
          obtain ⟨-, hsource⟩ := h id t ht p (List.mem_of_find?_eq_some hp)
          have hcovers :=
            Part.covers_iff.mp (List.find?_some (p := fun p : Part => p.covers index) hp)
          simp only [Part.stop] at hcovers
          simp only
          rw [w.add_eq (by omega), Option.bind_some, resolveIn_eq h hl depth]
          rfl
      | fixed | origin | tag => rfl

/-! ## 3. Ledgers that come about in words -/

/-- The ledgers to which the operations on trackers lead in words, where every call that records a
range names ranges that end within the words. -/
inductive ReachableIn (w : Overflow) : Ledger → Prop where
  | empty : ReachableIn w .empty
  | add {l : Ledger} (h : ReachableIn w l) (role : Role) (content : List UInt8)
      (descriptor : Option String) : ReachableIn w (l.add (.new role content descriptor)).2
  | twins {l : Ledger} (h : ReachableIn w l) (descriptor : String) :
      ReachableIn w (l.twins descriptor).2.2
  | initTwin {l l' : Ledger} (h : ReachableIn w l) {first second : TrackerId}
      (hlink : l.initTwin first second = .ok l') : ReachableIn w l'
  | append {l l' : Ledger} (h : ReachableIn w l) {id : TrackerId} {data : List UInt8}
      (happend : l.append id data = .ok l') : ReachableIn w l'
  | setDescriptor {l : Ledger} (h : ReachableIn w l) (id : TrackerId) (descriptor : String) :
      ReachableIn w (l.setDescriptor id descriptor)
  | setSource {l l' : Ledger} (h : ReachableIn w l) {id index length sourceIndex : Nat}
      {source : Option TrackerId} (hrange : Ranged index length source sourceIndex)
      (hset : l.setSourceIn w id index length source sourceIndex = some (.ok l')) : ReachableIn w l'
  | retain {l : Ledger} (h : ReachableIn w l) (roots : List TrackerId) :
      ReachableIn w (l.retain roots)

/-- **What comes about in words** comes about on numbers, and lies within the words. -/
theorem ReachableIn.reachable (h : l.ReachableIn w) : l.Reachable ∧ l.InWords := by
  induction h with
  | empty => exact ⟨.empty, .empty⟩
  | add _ role content descriptor ih =>
    exact ⟨ih.1.add role content descriptor, ih.2.add role content descriptor⟩
  | twins _ descriptor ih =>
    exact ⟨ih.1.twins descriptor, ((ih.2.add _ _ _).add _ _ _).alike (.link _ _ _)⟩
  | initTwin _ hlink ih => exact ⟨ih.1.initTwin hlink, ih.2.alike (.initTwin hlink)⟩
  | append _ happend ih => exact ⟨ih.1.append happend, ih.2.alike (.append happend)⟩
  | setDescriptor _ id descriptor ih =>
    exact ⟨ih.1.setDescriptor id descriptor, ih.2.alike (.modify _ id fun _ _ => rfl)⟩
  | setSource _ hrange hset ih =>
    rw [setSourceIn_eq ih.2 ih.1.ordered hrange] at hset
    have hset := Option.some.inj hset
    exact ⟨ih.1.setSource hset, ih.2.setSource ih.1.ordered hrange hset⟩
  | retain _ roots ih => exact ⟨ih.1.retain roots, fun id t ht => ih.2 id t (tracker?_retain ht)⟩

/-! ## 4. A pointwise update -/

/-- An origin, and a sink whose first four bytes came from it. -/
def fourBytes : Ledger :=
  ⟨⟨#[some (.new .origin [] none),
    some { Tracker.new .sink [] none with parts := [⟨0, 4, 1, 10⟩] }]⟩,
    .empty⟩

theorem fourBytes_reachable (w : Overflow) : fourBytes.ReachableIn w :=
  .setSource (.add (.add .empty .origin [] none) .sink [] none) ⟨by decide, fun _ => by decide⟩
    (show setSourceIn w _ 2 0 4 (some 1) 10 = _ from rfl)

end Provenance.Ledger
