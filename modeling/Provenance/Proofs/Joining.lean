/-
# What every merge preserves

`MergeIndex.Step` lists the ways in which two values can merge, and `MergeIndex.mergeAt?_cases` the
ways in which a slot takes them as members.  From these cases come the facts that every merge
preserves: merges stay founded (`MergeIndex.Founded.merge`), no merge loses all its members, and
what comes out has no more moves and conversions than what was there (`MergeIndex.merge_permitted`).
-/
import Provenance.Proofs.Standing

namespace Provenance

namespace MergeIndex

/-! ## 1. How a slot takes two values -/

/-- The values among two that are not the merge of a slot. -/
def arriving (slot : MergeSlot) (v w : FlowValue) : List FlowValue :=
  [v, w].filter fun u => !isHere slot u

theorem mem_arriving {slot : MergeSlot} {u v w : FlowValue} (h : u ∈ arriving slot v w) :
    (u = v ∨ u = w) ∧ isHere slot u = false := by
  obtain ⟨hmem, hhere⟩ := List.mem_filter.mp h
  exact ⟨by simpa using hmem, by simpa using hhere⟩

/-- A slot without members takes both values; one with members takes no merge of another slot. -/
theorem mergeAt?_cases {x x' : MergeIndex} {slot : MergeSlot} {v w : FlowValue}
    (h : x.mergeAt? slot v w = some x') :
    (x.members slot = [] ∧ x' = x.put slot (arriving slot v w)) ∨
    (x.members slot ≠ [] ∧ isElsewhere slot v = false ∧ isElsewhere slot w = false ∧
      x' = x.put slot ((arriving slot v w).foldl (fun ms u => (x.remove slot).absorb u ms)
        (x.members slot))) := by
  unfold mergeAt? at h
  simp only at h
  split at h
  · rename_i hnil
    exact Or.inl ⟨hnil, (Option.some.inj h).symm⟩
  · rename_i hne
    split at h
    · exact absurd h (by simp)
    · rename_i helse
      simp only [Bool.or_eq_true, not_or, Bool.not_eq_true] at helse
      exact Or.inr ⟨hne, helse.1, helse.2, (Option.some.inj h).symm⟩

/-- A value that is neither the merge of a slot nor that of another one is no merge. -/
theorem not_merged {slot : MergeSlot} {v : FlowValue} (hhere : isHere slot v = false)
    (helse : isElsewhere slot v = false) (t : Ty) (s : MergeSlot) : v ≠ .merged t s := by
  rintro rfl
  simp only [isHere, isElsewhere, decide_eq_false_iff_not, not_not] at hhere helse
  exact hhere helse

/-! ## 2. Members stay -/

theorem absorb_ne_nil (x : MergeIndex) (v : FlowValue) : ∀ ms, x.absorb v ms ≠ []
  | [] => by simp [absorb]
  | m :: ms => by
    unfold absorb
    cases x.covering? m v <;> simp

theorem foldl_absorb_ne_nil {x : MergeIndex} : ∀ {vs ms : List FlowValue}, ms ≠ [] →
    vs.foldl (fun ms v => x.absorb v ms) ms ≠ []
  | [], _, h => h
  | v :: vs, ms, _ => by
    rw [List.foldl_cons]
    exact foldl_absorb_ne_nil (absorb_ne_nil x v ms)

section

variable {x x' : MergeIndex} {slot : MergeSlot} {v w r : FlowValue}

/-- **No merge loses all its members.** -/
theorem Step.members_ne_nil (h : Step x slot v w r x') {t : MergeSlot} (ht : x.members t ≠ []) :
    x'.members t ≠ [] := by
  cases h with
  | joined _ _ _ _ _ hat =>
    rcases mergeAt?_cases hat with ⟨hnil, rfl⟩ | ⟨hne, -, -, rfl⟩
    · rw [members_put]
      split
      · rename_i hts
        exact absurd (hts ▸ hnil) ht
      · exact ht
    · rw [members_put]
      split
      · exact foldl_absorb_ne_nil hne
      · exact ht
  | _ => exact ht

theorem Backed.step {u : FlowValue} (hu : x.Backed u) (h : Step x slot v w r x') : x'.Backed u :=
  fun t s hs => h.members_ne_nil (hu t s hs)

/-- The merge of a slot that has no members stands nowhere. -/
theorem Backed.not_here {u : FlowValue} (hu : x.Backed u) (hnil : x.members slot = []) :
    isHere slot u = false := by
  cases u with
  | merged t s =>
    simp only [isHere, decide_eq_false_iff_not]
    rintro rfl
    exact hu t s rfl hnil
  | _ => rfl

theorem arriving_eq (hv : x.Backed v) (hw : x.Backed w) (hnil : x.members slot = []) :
    arriving slot v w = [v, w] := by
  simp [arriving, hv.not_here hnil, hw.not_here hnil]

/-- What comes out of two values is no merge without members. -/
theorem Step.backed (h : Step x slot v w r x') (hv : x.Backed v) (hw : x.Backed w) :
    x'.Backed r := by
  cases h with
  | kept _ => exact hv
  | replaced _ _ _ _ _ => exact hw
  | forgotten => intro t s hs; simp [FlowValue.base] at hs
  | joined _ _ _ _ _ hat =>
    intro t s hs
    simp only [FlowValue.base, FlowValue.merged.injEq] at hs
    obtain ⟨-, rfl⟩ := hs
    rcases mergeAt?_cases hat with ⟨hnil, rfl⟩ | ⟨hne, -, -, rfl⟩
    · rw [members_put, if_pos rfl, arriving_eq hv hw hnil]
      simp
    · rw [members_put, if_pos rfl]
      exact foldl_absorb_ne_nil hne

variable {m : Method} {d : Nat}

/-- **What comes out of two values** has no more moves and conversions than the first of them. -/
theorem Step.permitted (h : Step x slot v w r x') (hslot : slot ∈ m.slots) (hv : Permitted m d v)
    {e : Nat} (hw : Permitted m e w) : Permitted m d r := by
  cases h with
  | kept _ => exact hv
  | replaced htv htw _ hc _ => exact Or.inr ((hw.possible htw).of_covers (hv.possible htv) hc)
  | forgotten => exact Or.inl ⟨_, rfl⟩
  | joined htv htw _ _ hty _ =>
    obtain ⟨a, ha, hva⟩ := (hv.possible htv).ty_mem
    obtain ⟨b, hb, hwb⟩ := (hw.possible htw).ty_mem
    rw [hva, hwb] at hty
    exact Or.inr (.merged (mergeTypes_mem ha hb hty) hslot)

/-! ## 3. Merges stay founded -/

/-- The rank of a merge, and none of any other value. -/
def rankOf (f : MergeSlot → Nat) : FlowValue → Nat
  | .merged _ s => f s
  | _ => 0

/-- A slot that gets its first members is put above them. -/
theorem Founded.ranked_opened (h : Founded m x) (hv : x.Backed v) (hw : x.Backed w)
    (hnil : x.members slot = []) :
    ∃ f : MergeSlot → Nat, ∀ s t, (x.put slot [v, w]).Joins s t → f s < f t := by
  obtain ⟨f, hf⟩ := h.ranked
  refine ⟨fun s => if s = slot then rankOf f v + rankOf f w + 1 else f s, ?_⟩
  rintro s t ⟨ty, hmem⟩
  rw [members_put] at hmem
  simp only
  split at hmem
  · rename_i hts
    rw [if_pos hts]
    have hbacked : x.Backed (.merged ty s) := by
      rcases List.mem_pair.mp hmem with heq | heq
      · exact heq ▸ hv
      · exact heq ▸ hw
    have hs : s ≠ slot := fun heq => hbacked ty s rfl (heq ▸ hnil)
    rw [if_neg hs]
    rcases List.mem_pair.mp hmem with heq | heq
    · rw [← heq]
      simp only [rankOf]
      omega
    · rw [← heq]
      simp only [rankOf]
      omega
  · rename_i hts
    have hs : s ≠ slot := fun heq => h.backed t _ hmem ty s rfl (heq ▸ hnil)
    rw [if_neg hts, if_neg hs]
    exact hf s t ⟨ty, hmem⟩

/-- A slot that has members gets no merge as a new one. -/
theorem joins_of_grown (hv : isElsewhere slot v = false) (hw : isElsewhere slot w = false)
    {s t : MergeSlot} (h : (x.put slot ((arriving slot v w).foldl
      (fun ms u => (x.remove slot).absorb u ms) (x.members slot))).Joins s t) : x.Joins s t := by
  obtain ⟨ty, hmem⟩ := h
  rw [members_put] at hmem
  split at hmem
  · rename_i hts
    rcases mem_foldl_absorb hmem with hmem | hmem
    · obtain ⟨heq, hhere⟩ := mem_arriving hmem
      have helse : isElsewhere slot (.merged ty s) = false := by
        rcases heq with heq | heq
        · exact heq ▸ hv
        · exact heq ▸ hw
      exact absurd rfl (not_merged hhere helse ty s)
    · exact ⟨ty, hts ▸ hmem⟩
  · exact ⟨ty, hmem⟩

/-- **Merges stay founded.** -/
theorem Founded.step (h : Founded m x) (hstep : Step x slot v w r x')
    (hv : Permitted m (m.insns.length + 1) v) (hvb : x.Backed v)
    (hw : Permitted m (m.insns.length + 1) w) (hwb : x.Backed w) : Founded m x' := by
  have hstays : ∀ {u}, x.Backed u → x'.Backed u := fun hu => hu.step hstep
  cases hstep with
  | joined htv htw hne hvw hty hat =>
    refine ⟨?_, fun t u hu => ?_, fun t u hu => ?_⟩
    · rcases mergeAt?_cases hat with ⟨hnil, rfl⟩ | ⟨-, hev, hew, rfl⟩
      · rw [arriving_eq hvb hwb hnil]
        exact h.ranked_opened hvb hwb hnil
      · obtain ⟨f, hf⟩ := h.ranked
        exact ⟨f, fun s t hst => hf s t (joins_of_grown hev hew hst)⟩
    · rcases mem_members_mergeAt? hat hu with hu | rfl | rfl
      · exact h.possible t u hu
      · exact hv.possible htv
      · exact hw.possible htw
    · rcases mem_members_mergeAt? hat hu with hu | rfl | rfl
      · exact hstays (h.backed t u hu)
      · exact hstays hvb
      · exact hstays hwb
  | _ => exact h

end

end MergeIndex

end Provenance
