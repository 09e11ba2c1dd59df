/-
# Merging again what was merged

The analysis comes by a slot again and again.  Each time the value that it left there meets one of
those that it was made of, and nothing must come of it, or the analysis would go on for nothing.
Section 1 says why the merge of a slot stands still: either all that meets there is a member
already, or the slot has members and takes whatever is no merge of another slot.  Section 2
concludes, for every index and whatever the two values are, that their merge absorbs itself and both
of them any number of times (`MergeIndex.merges_absorb`), and so each of them once
(`MergeIndex.merge_absorbs`).
-/
import Provenance.Proofs.CommonTypes
import Provenance.Proofs.Joining

namespace Provenance

namespace MergeIndex

variable {x y : MergeIndex} {slot : MergeSlot} {m v w : FlowValue} {t : Ty} {vs : List FlowValue}

/-! ## 1. The merge of a slot stands still -/

@[simp] theorem merge_same (x : MergeIndex) (slot : MergeSlot) (v : FlowValue) :
    x.merge slot v v = (v, x) := by
  rw [merge, if_pos rfl]

/-- Nothing becomes known of a value by merging, but its type may change. -/
theorem merge_unknown (y : MergeIndex) (slot : MergeSlot) (ty : Option Ty) (v : FlowValue) :
    y.merge slot (.untrackable ty) v = (.untrackable (mergeTypes ty v.ty?), y) := by
  unfold merge
  split
  · rename_i heq
    rw [← heq, FlowValue.ty?, mergeTypes_self]
  · simp [FlowValue.mayBeTrackable, FlowValue.base, FlowValue.ty?]

/-- A value of which nothing is known, with a type that the other one does not change. -/
theorem merge_untrackable {ty : Option Ty} (h : mergeTypes ty v.ty? = ty) :
    y.merge slot (.untrackable ty) v = (.untrackable ty, y) := by
  rw [merge_unknown, h]

/-- The values that change neither the type `t` of a merge nor that it can be followed. -/
def Suits (t : Ty) (v : FlowValue) : Prop :=
  v.mayBeTrackable = true ∧ mergeTypes (some t) v.ty? = some t

/-- A value that covers another one is their merge. -/
theorem merge_of_covers (hv : v.mayBeTrackable = true) (hw : w.mayBeTrackable = true)
    (h : y.covers v w = true) : y.merge slot v w = (v, y) := by
  unfold merge
  split
  · rfl
  · simp only [covering?, h, hv, hw, Bool.or_true, Bool.and_self, if_true]

/-- The merge of a slot that has members covers them, and every merge of the same slot. -/
theorem covers_inside (h : isHere slot v = true ∨ v ∈ y.members slot) (hne : y.members slot ≠ []) :
    y.covers (.merged t slot) v = true := by
  refine covers_merged_iff.mpr ?_
  rcases h with hhere | hmem
  · cases v with
    | merged t' s =>
      obtain rfl : s = slot := of_decide_eq_true hhere
      exact Or.inr ⟨t', s, rfl, hne, fun u hu => hu⟩
    | _ => simp [isHere] at hhere
  · exact Or.inl hmem

/-- What is no merge of another slot covers the merge of a slot only if that covers it, too. -/
theorem covers_back (helse : isElsewhere slot v = false) (h : y.covers v (.merged t slot) = true) :
    y.covers (.merged t slot) v = true := by
  cases v with
  | merged t' s =>
    obtain rfl : s = slot := by simpa [isElsewhere] using helse
    refine covers_inside (Or.inl (by simp [isHere])) ?_
    rcases covers_merged_iff.mp h with hmem | ⟨_, _, heq, hne, -⟩
    · exact List.ne_nil_of_mem hmem
    · cases heq
      exact hne
  | _ => simp [covers] at h

/-- The merge of a slot takes what is no merge of another slot. -/
theorem merge_taken (hv : Suits t v) (helse : isElsewhere slot v = false) :
    (y.merge slot (.merged t slot) v).1 = .merged t slot := by
  by_cases hc : y.covers (.merged t slot) v = true
  · rw [merge_of_covers rfl hv.1 hc]
  · have hback : y.covers v (.merged t slot) ≠ true := fun h => hc (covers_back helse h)
    have hm : (FlowValue.merged t slot).mayBeTrackable = true := rfl
    have hty : mergeTypes (FlowValue.merged t slot).ty? v.ty? = some t := hv.2
    obtain ⟨y', hat⟩ : ∃ y', y.mergeAt? slot (.merged t slot) v = some y' := by
      have hself : isElsewhere slot (.merged t slot) = false := by simp [isElsewhere]
      unfold mergeAt?
      cases y.members slot with
      | nil => exact ⟨_, rfl⟩
      | cons u us =>
        simp only [hself, helse, Bool.or_self, Bool.false_eq_true, if_false]
        exact ⟨_, rfl⟩
    unfold merge
    split
    · rfl
    · rename_i hne
      simp only [covering?, hne, hc, hback, hm, hv.1, hty, hat, decide_false, Bool.or_self,
        Bool.and_self, Bool.false_eq_true, if_true, if_false]

/-- A value stands still while those of a list are merged into it: none of them changes it or the
index, or it is the merge of a slot that has all of them or takes them. -/
inductive Rests (y : MergeIndex) (slot : MergeSlot) (vs : List FlowValue) : FlowValue → Prop where
  | fixed {m : FlowValue} (h : ∀ v ∈ vs, y.merge slot m v = (m, y)) : Rests y slot vs m
  /-- All are members, or merges of the slot. -/
  | inside {t : Ty} (hs : ∀ v ∈ vs, Suits t v)
      (h : ∀ v ∈ vs, isHere slot v = true ∨ v ∈ y.members slot) : Rests y slot vs (.merged t slot)
  /-- The slot has members, and no merge of another slot comes. -/
  | taking {t : Ty} (hs : ∀ v ∈ vs, Suits t v) (hne : y.members slot ≠ [])
      (h : ∀ v ∈ vs, isElsewhere slot v = false) : Rests y slot vs (.merged t slot)

/-- **One more merge** gives the same value, which still stands still. -/
theorem Rests.merge (h : Rests y slot vs m) (hv : v ∈ vs) :
    (y.merge slot m v).1 = m ∧ Rests (y.merge slot m v).2 slot vs m := by
  cases h with
  | fixed hall =>
    rw [hall v hv]
    exact ⟨rfl, .fixed hall⟩
  | inside hs hall =>
    by_cases hnil : y.members slot = []
    · have hhere : ∀ u ∈ vs, isHere slot u = true := fun u hu =>
        (hall u hu).resolve_right fun hmem => by simp [hnil] at hmem
      have helse : isElsewhere slot v = false := by
        have := hhere v hv
        cases v <;> simp_all [isHere, isElsewhere]
      exact ⟨merge_taken (hs v hv) helse, .inside hs fun u hu => Or.inl (hhere u hu)⟩
    · rw [merge_of_covers rfl (hs v hv).1 (covers_inside (hall v hv) hnil)]
      exact ⟨rfl, .inside hs hall⟩
  | taking hs hne hall =>
    exact ⟨merge_taken (hs v hv) (hall v hv),
      .taking hs ((merge_step y slot _ v).members_ne_nil hne) hall⟩

/-- Merges one value after the other into what came out before. -/
def mergeAll (slot : MergeSlot) : FlowValue × MergeIndex → List FlowValue → FlowValue × MergeIndex
  | r, [] => r
  | r, v :: vs => mergeAll slot (r.2.merge slot r.1 v) vs

/-- **Any number of merges** gives the same value. -/
theorem Rests.mergeAll {ws : List FlowValue} : ∀ {r : FlowValue × MergeIndex},
    Rests r.2 slot vs r.1 → (∀ w ∈ ws, w ∈ vs) → (mergeAll slot r ws).1 = r.1 := by
  induction ws with
  | nil => intro r _ _; rfl
  | cons w ws ih =>
    intro r h hws
    obtain ⟨hsame, hrests⟩ := h.merge (hws w (by simp))
    have hrests' : Rests (r.2.merge slot r.1 w).2 slot vs (r.2.merge slot r.1 w).1 := by rwa [hsame]
    exact (ih hrests' fun u hu => hws u (List.mem_cons_of_mem w hu)).trans hsame

/-! ## 2. What comes out absorbs what went in -/

/-- **The merge of two values stands still** while it meets itself and the two. -/
theorem rests_merge (x : MergeIndex) (slot : MergeSlot) (v w : FlowValue) :
    Rests (x.merge slot v w).2 slot [(x.merge slot v w).1, v, w] (x.merge slot v w).1 := by
  have hstep := merge_step x slot v w
  generalize hr : x.merge slot v w = r at hstep ⊢
  obtain ⟨r, y⟩ := r
  have hthree : ∀ {u}, u ∈ [r, v, w] → u = r ∨ u = v ∨ u = w := by simp
  cases hstep with
  | kept _ =>
    refine .fixed fun u hu => ?_
    rcases hthree hu with rfl | rfl | rfl
    · exact merge_same _ slot _
    · exact merge_same _ slot _
    · exact hr
  | replaced hv hw _ h _ =>
    refine .fixed fun u hu => ?_
    rcases hthree hu with rfl | rfl | rfl
    · exact merge_same _ slot _
    · exact merge_of_covers hw hv h
    · exact merge_same _ slot _
  | forgotten =>
    refine .fixed fun u hu => ?_
    rcases hthree hu with rfl | rfl | rfl
    · exact merge_same _ slot _
    · exact merge_untrackable (mergeTypes_absorbs_left _ _)
    · exact merge_untrackable (mergeTypes_absorbs_right _ _)
  | @joined t _ hv hw _ _ hty hat =>
    have hs : ∀ u ∈ [FlowValue.merged t slot, v, w], Suits t u := by
      intro u hu
      rcases hthree hu with rfl | rfl | rfl
      · exact ⟨rfl, mergeTypes_self _⟩
      · exact ⟨hv, hty ▸ mergeTypes_absorbs_left _ _⟩
      · exact ⟨hw, hty ▸ mergeTypes_absorbs_right _ _⟩
    have hself : isHere slot (.merged t slot) = true := by simp [isHere]
    rcases mergeAt?_cases hat with ⟨-, rfl⟩ | ⟨hne, helse, helse', rfl⟩
    · refine .inside hs fun u hu => ?_
      rw [members_put, if_pos rfl]
      by_cases hhere : isHere slot u = true
      · exact Or.inl hhere
      · refine Or.inr (List.mem_filter.mpr ⟨?_, by simp [hhere]⟩)
        rcases hthree hu with rfl | rfl | rfl
        · exact absurd hself hhere
        · simp
        · simp
    · refine .taking hs ?_ fun u hu => ?_
      · rw [members_put, if_pos rfl]
        exact foldl_absorb_ne_nil hne
      · rcases hthree hu with rfl | rfl | rfl
        · simp [isElsewhere]
        · exact helse
        · exact helse'

/-- **What comes out of a merge absorbs what went in**, however often and in whatever order it
comes, and while the index changes with it. -/
theorem merges_absorb (x : MergeIndex) (slot : MergeSlot) (v w : FlowValue) {us : List FlowValue}
    (hus : ∀ u ∈ us, u = (x.merge slot v w).1 ∨ u = v ∨ u = w) :
    (mergeAll slot (x.merge slot v w) us).1 = (x.merge slot v w).1 :=
  (rests_merge x slot v w).mergeAll fun u hu => by simpa using hus u hu

/-- **Merging absorbs its inputs.**  In the index that a merge leaves behind, what came out of it
merges with itself and with either of the two values into itself. -/
theorem merge_absorbs (x : MergeIndex) (slot : MergeSlot) (v w : FlowValue) :
    let m := (x.merge slot v w).1
    let y := (x.merge slot v w).2
    (y.merge slot m m).1 = m ∧ (y.merge slot m v).1 = m ∧ (y.merge slot m w).1 = m := by
  intro m y
  have honce : ∀ u, u = m ∨ u = v ∨ u = w → (y.merge slot m u).1 = m := fun u hu =>
    show (mergeAll slot (x.merge slot v w) [u]).1 = m from
      merges_absorb x slot v w (by simpa using hu)
  exact ⟨honce m (.inl rfl), honce v (.inr (.inl rfl)), honce w (.inr (.inr rfl))⟩

end MergeIndex

end Provenance
