/-
# How much a merge stands for

A value that covers another one takes its place.  That this cannot go on for ever is not seen from
the values alone, for they are nested and the members of merges grow; it is seen from the standing
of merges.  The standing of a merge counts first the merges below it and then its members
(`MergeIndex.standing`), and a value that covers another one has the greater standing at its base,
or less around it (`MergeIndex.weight_lt_of_covers`).

This rests on merges not being members of each other in a circle, and on their members being among
the finitely many values that are possible (`MergeIndex.Founded`).
-/
import Mathlib.Data.Finset.Card
import Mathlib.Logic.Relation
import Provenance.Proofs.Possible

namespace Provenance

/-- How many members a merge can have. -/
noncomputable def Method.memberBound (m : Method) : Nat :=
  (Possible.finite m (m.insns.length + 1)).toFinset.card

namespace MergeIndex

/-! ## 1. Merges below merges -/

/-- The merge of one slot is a member of the merge of another one. -/
def Joins (x : MergeIndex) (s t : MergeSlot) : Prop := ∃ ty, .merged ty s ∈ x.members t

/-- A value that is no merge without members, below moves and conversions. -/
def Backed (x : MergeIndex) (v : FlowValue) : Prop :=
  ∀ t s, v.base = .merged t s → x.members s ≠ []

/-- What holds of the merges while a method is analysed. -/
structure Founded (m : Method) (x : MergeIndex) : Prop where
  /-- No merge leads back to itself by members that are merges. -/
  ranked : ∃ r : MergeSlot → Nat, ∀ s t, x.Joins s t → r s < r t
  possible : ∀ t, ∀ v ∈ x.members t, Possible m (m.insns.length + 1) v
  backed : ∀ t, ∀ v ∈ x.members t, x.Backed v

/-- The number of members of a merge. -/
def count (x : MergeIndex) (t : MergeSlot) : Nat := (x.members t).toFinset.card

open Classical in
/-- The merges that are members of a merge, or members of members, and so on. -/
noncomputable def below (m : Method) (x : MergeIndex) (t : MergeSlot) : Finset MergeSlot :=
  m.slots.filter fun s => Relation.TransGen x.Joins s t

/-- The standing of a merge: the merges below it, and its members. -/
noncomputable def standing (m : Method) (x : MergeIndex) (t : MergeSlot) : Nat :=
  (x.below m t).card * (m.memberBound + 1) + x.count t

/-- The greatest standing there can be. -/
noncomputable def top (m : Method) : Nat := m.slots.card * (m.memberBound + 1) + m.memberBound

section

variable {m : Method} {x : MergeIndex}

theorem mem_below {s t : MergeSlot} :
    s ∈ x.below m t ↔ s ∈ m.slots ∧ Relation.TransGen x.Joins s t := by
  simp [below]

theorem Founded.count_le (h : Founded m x) (t : MergeSlot) : x.count t ≤ m.memberBound := by
  refine Finset.card_le_card fun v hv => ?_
  rw [Set.Finite.mem_toFinset]
  exact h.possible t v (List.mem_toFinset.mp hv)

theorem Founded.standing_le (h : Founded m x) (t : MergeSlot) : x.standing m t ≤ top m := by
  have hbelow : (x.below m t).card ≤ m.slots.card :=
    Finset.card_le_card fun s hs => (mem_below.mp hs).1
  have hcount := h.count_le t
  unfold standing top
  have := Nat.mul_le_mul_right (m.memberBound + 1) hbelow
  omega

/-- No merge is below itself. -/
theorem Founded.not_below (h : Founded m x) (s : MergeSlot) : ¬ Relation.TransGen x.Joins s s := by
  obtain ⟨r, hr⟩ := h.ranked
  have hlt : ∀ {a b}, Relation.TransGen x.Joins a b → r a < r b := by
    intro a b hab
    induction hab with
    | single hj => exact hr _ _ hj
    | tail _ hj ih => exact ih.trans (hr _ _ hj)
  exact fun hs => Nat.lt_irrefl _ (hlt hs)

/-- A merge that has members of another one below it has all that is below that one. -/
theorem below_subset {s t : MergeSlot} (h : ∀ u, x.Joins u s → x.Joins u t) :
    x.below m s ⊆ x.below m t := by
  intro u hu
  obtain ⟨hslot, hus⟩ := mem_below.mp hu
  refine mem_below.mpr ⟨hslot, ?_⟩
  cases hus with
  | single hj => exact .single (h u hj)
  | tail hab hj => exact .tail hab (h _ hj)

/-- **A merge stands above its members.** -/
theorem Founded.standing_lt_of_joins (h : Founded m x) {s t : MergeSlot} (hst : x.Joins s t) :
    x.standing m s < x.standing m t := by
  obtain ⟨ty, hmem⟩ := hst
  have hslot : s ∈ m.slots := by
    cases h.possible t _ hmem with
    | merged _ hs => exact hs
    | defined hi hv =>
      obtain ⟨_, -, ⟨_, h⟩ | h | ⟨_, h⟩ | h⟩ := Possible.cases_defines hv <;> cases h
  have hnot : s ∉ x.below m s := fun hs => h.not_below s (mem_below.mp hs).2
  have hsub : insert s (x.below m s) ⊆ x.below m t := by
    intro u hu
    rcases Finset.mem_insert.mp hu with rfl | hu
    · exact mem_below.mpr ⟨hslot, .single ⟨ty, hmem⟩⟩
    · obtain ⟨hu, hus⟩ := mem_below.mp hu
      exact mem_below.mpr ⟨hu, hus.tail ⟨ty, hmem⟩⟩
  have hcard : (x.below m s).card + 1 ≤ (x.below m t).card := by
    rw [← Finset.card_insert_of_notMem hnot]
    exact Finset.card_le_card hsub
  have hcount := h.count_le s
  have hmul := Nat.mul_le_mul_right (m.memberBound + 1) hcard
  rw [Nat.add_mul, Nat.one_mul] at hmul
  unfold standing
  omega

/-- **A merge stands above one with fewer members.** -/
theorem standing_lt_of_subset {s t : MergeSlot} (hsub : ∀ u ∈ x.members s, u ∈ x.members t)
    {w : FlowValue} (hw : w ∈ x.members t) (hw' : w ∉ x.members s) :
    x.standing m s < x.standing m t := by
  have hbelow : (x.below m s).card ≤ (x.below m t).card :=
    Finset.card_le_card (below_subset fun u hu => hu.imp fun ty hu => hsub _ hu)
  have hcount : x.count s < x.count t := by
    refine Finset.card_lt_card (Finset.ssubset_iff_subset_ne.mpr ⟨fun u hu => ?_, fun heq => ?_⟩)
    · exact List.mem_toFinset.mpr (hsub u (List.mem_toFinset.mp hu))
    · exact hw' (List.mem_toFinset.mp (heq ▸ List.mem_toFinset.mpr hw))
  have hmul := Nat.mul_le_mul_right (m.memberBound + 1) hbelow
  unfold standing
  omega

end

/-! ## 2. What is around a merge -/

/-- The weight of a value: the less its base stands for, and the more there is around it. -/
noncomputable def weight (m : Method) (x : MergeIndex) : FlowValue → Nat
  | .merged _ s => top m - x.standing m s
  | .copy _ v => weight m x v + (top m + 2)
  | .cast _ _ v => weight m x v + (top m + 2)
  | _ => top m + 1

section

variable {m : Method} {x y : MergeIndex}

theorem lt_weight {v : FlowValue} (h : ∀ t s, v ≠ .merged t s) : top m < x.weight m v := by
  cases v with
  | merged t s => exact absurd rfl (h t s)
  | copy k v => simp only [weight]; omega
  | cast t k v => simp only [weight]; omega
  | _ => simp [weight]

theorem covers_merged_iff {t : Ty} {s : MergeSlot} {v : FlowValue} :
    y.covers (.merged t s) v = true ↔ v ∈ y.members s ∨
      ∃ t' s', v = .merged t' s' ∧ y.members s' ≠ [] ∧ ∀ u ∈ y.members s', u ∈ y.members s := by
  cases v <;> simp [covers]

/-- **A value weighs less than the values that it covers**, also while the members of a slot are out
of sight. -/
theorem Founded.weight_lt_of_covers (h : Founded m x)
    (hy : ∀ t, y.members t = [] ∨ y.members t = x.members t) : ∀ {w v : FlowValue},
    y.covers w v = true → w ≠ v → ¬ y.covers v w = true → x.weight m w < x.weight m v := by
  have hseen : ∀ {t : MergeSlot} {u : FlowValue}, u ∈ y.members t → y.members t = x.members t :=
    fun {t u} hu => (hy t).resolve_left (List.ne_nil_of_mem hu)
  intro w
  induction w with
  | copy i a ih =>
    intro v hc hne hnot
    cases v with
    | copy j b =>
      simp only [covers, Bool.and_eq_true, decide_eq_true_eq, Bool.or_eq_true] at hc hnot
      obtain ⟨rfl, rfl | hab⟩ := hc
      · exact absurd rfl hne
      · have hba : ¬ y.covers b a = true := fun hba => hnot ⟨rfl, Or.inr hba⟩
        have := ih hab (fun heq => hne (heq ▸ rfl)) hba
        simp only [weight]
        omega
    | _ => simp [covers] at hc
  | cast t i a ih =>
    intro v hc hne hnot
    cases v with
    | cast u j b =>
      simp only [covers, Bool.and_eq_true, decide_eq_true_eq, Bool.or_eq_true] at hc hnot
      obtain ⟨⟨rfl, rfl⟩, rfl | hab⟩ := hc
      · exact absurd rfl hne
      · have hba : ¬ y.covers b a = true := fun hba => hnot ⟨⟨rfl, rfl⟩, Or.inr hba⟩
        have := ih hab (fun heq => hne (heq ▸ rfl)) hba
        simp only [weight]
        omega
    | _ => simp [covers] at hc
  | merged t s =>
    intro v hc _ hnot
    have hbound := h.standing_le s
    by_cases hv : ∀ t' s', v ≠ .merged t' s'
    · have := lt_weight (m := m) (x := x) hv
      simp only [weight]
      omega
    · simp only [ne_eq, not_forall, not_not] at hv
      obtain ⟨t', s', rfl⟩ := hv
      have hstanding : x.standing m s' < x.standing m s := by
        rcases covers_merged_iff.mp hc with hmem | ⟨_, _, heq, hne, hall⟩
        · exact h.standing_lt_of_joins ⟨t', hseen hmem ▸ hmem⟩
        · cases heq
          obtain ⟨u, hu⟩ := List.exists_mem_of_ne_nil _ hne
          have hs' := hseen hu
          have hs := hseen (hall u hu)
          obtain ⟨w, hw, hw'⟩ : ∃ w ∈ y.members s, w ∉ y.members s' := by
            by_contra hcon
            simp only [not_exists, not_and, not_not] at hcon
            exact hnot (covers_merged_iff.mpr
              (Or.inr ⟨t, s, rfl, List.ne_nil_of_mem (hall u hu), hcon⟩))
          rw [hs] at hall hw
          rw [hs'] at hall hw'
          exact standing_lt_of_subset hall hw hw'
      simp only [weight]
      omega
  | _ => intro v hc; simp [covers] at hc

end

end MergeIndex

end Provenance
