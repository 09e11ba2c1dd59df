/-
# Merging lowers the cost

The cost of values and merges is what is left of the ways in which they can still change: how much
is known of the values, how many members the merges have room for, how much the values weigh, and
how far their types are from having none (`Cost`).  Merging two values in a slot lowers the cost, or
changes neither the value of the slot nor any merge (`MergeIndex.merge_lowers`).
-/
import Mathlib.Algebra.Order.BigOperators.Ring.Finset
import Provenance.Proofs.Joining

namespace Provenance

/-! ## 1. What can still change -/

/-- How often a type can still change where types meet: the type of `null` gives way to that of
another reference, that to `Object`, and this to none. -/
def typeRoom : Option Ty → Nat
  | none => 0
  | some t => if t.isNull then 3 else if t = .int ∨ t = .object Ty.objectClass then 1 else 2

theorem typeRoom_pos (t : Ty) : 0 < typeRoom (some t) := by
  simp only [typeRoom]
  split
  · omega
  · split <;> omega

theorem typeRoom_le (t : Option Ty) : typeRoom t ≤ 3 := by
  cases t with
  | none => simp [typeRoom]
  | some t =>
    simp only [typeRoom]
    split
    · omega
    · split <;> omega

/-- A type that can still become `Object` or `int`. -/
theorem typeRoom_of_other {t : Ty} (hnull : ¬ t.isNull = true)
    (h : ¬ (t = .int ∨ t = .object Ty.objectClass)) : typeRoom (some t) = 2 := by
  simp only [typeRoom]
  rw [if_neg hnull, if_neg h]

theorem typeRoom_int : typeRoom (some .int) = 1 := by decide

theorem typeRoom_object : typeRoom (some (.object Ty.objectClass)) = 1 := by decide

/-- The slot of another type in which a type fits has less room. -/
theorem typeRoom_lt {s t : Option Ty} (hfits : FitsIn s t) (hne : s ≠ t) :
    typeRoom t < typeRoom s := by
  cases hfits with
  | same => exact absurd rfl hne
  | @null a b ha _ =>
    have hb : ¬ b.isNull = true := fun hb => hne (congrArg some (Ty.eq_of_isNull ha hb))
    have hroom : typeRoom (some a) = 3 := if_pos ha
    simp only [typeRoom, if_neg hb] at hroom ⊢
    split <;> omega
  | @object a b ha hb =>
    subst hb
    have hint : a ≠ .int := by
      rintro rfl
      simp [Ty.isReference] at ha
    have hobject : a ≠ .object Ty.objectClass := fun heq => hne (congrArg some heq)
    rw [typeRoom_object]
    by_cases hnull : a.isNull = true
    · simp [typeRoom, hnull]
    · simp [typeRoom_of_other hnull (fun h => h.elim hint hobject)]
  | @int a b ha hb =>
    subst hb
    have hnull : ¬ a.isNull = true := fun hnull =>
      Ty.not_isReference_of_isIntLike ha (Ty.isReference_of_isNull hnull)
    have hobject : a ≠ .object Ty.objectClass := by
      rintro rfl
      simp [Ty.isIntLike] at ha
    have hint : a ≠ .int := fun heq => hne (congrArg some heq)
    simp [typeRoom_int, typeRoom_of_other hnull (fun h => h.elim hint hobject)]
  | untyped =>
    cases s with
    | none => exact absurd rfl hne
    | some a => exact typeRoom_pos a

/-- **A type that changes has less room to change again.** -/
theorem typeRoom_mergeTypes (a b : Option Ty) :
    typeRoom (mergeTypes a b) < typeRoom a ∨ mergeTypes a b = a := by
  by_cases heq : a = mergeTypes a b
  · exact Or.inr heq.symm
  · exact Or.inl (typeRoom_lt (fitsIn_mergeTypes a b).1 heq)

/-- The moves and conversions around a merge, or around what is none. -/
def FlowValue.layers : FlowValue → Nat
  | .merged _ _ => 0
  | .copy _ v | .cast _ _ v => v.layers + 1
  | _ => 1

/-- What is known of a value: more of one that can be followed than of one that cannot be, and the
more the further it is from being a merge. -/
def FlowValue.grade : FlowValue → Nat
  | .untrackable t => typeRoom t
  | v => 4 + v.layers

theorem MergeIndex.covers_layers {x : MergeIndex} : ∀ {w v : FlowValue}, x.covers w v = true →
    w.layers ≤ v.layers := by
  intro w
  induction w with
  | copy i a ih =>
    intro v hc
    cases v with
    | copy j b =>
      simp only [covers, Bool.and_eq_true, decide_eq_true_eq, Bool.or_eq_true] at hc
      obtain ⟨-, rfl | hab⟩ := hc
      · exact Nat.le_refl _
      · exact Nat.succ_le_succ (ih hab)
    | _ => simp [covers] at hc
  | cast t i a ih =>
    intro v hc
    cases v with
    | cast u j b =>
      simp only [covers, Bool.and_eq_true, decide_eq_true_eq, Bool.or_eq_true] at hc
      obtain ⟨-, rfl | hab⟩ := hc
      · exact Nat.le_refl _
      · exact Nat.succ_le_succ (ih hab)
    | _ => simp [covers] at hc
  | merged t s => intro v _; exact Nat.zero_le _
  | _ => intro v hc; simp [covers] at hc

theorem FlowValue.grade_of_trackable {v : FlowValue} (h : v.mayBeTrackable = true) :
    v.grade = 4 + v.layers := by
  cases v with
  | untrackable t => simp [mayBeTrackable, base] at h
  | _ => rfl

/-! ## 2. The cost -/

/-- What is left of the ways in which values and merges can change, the first part counting first.
-/
structure Cost where
  grades : Nat
  /-- The room for further members. -/
  room : Nat
  weight : Nat
  types : Nat

/-- One cost is lower than another one in the first part in which they differ. -/
def Cost.Lower (a b : Cost) : Prop :=
  a.grades < b.grades ∨ a.grades = b.grades ∧ (a.room < b.room ∨ a.room = b.room ∧
    (a.weight < b.weight ∨ a.weight = b.weight ∧ a.types < b.types))

theorem Cost.Lower.trans {a b c : Cost} (h : a.Lower b) (h' : b.Lower c) : a.Lower c := by
  unfold Cost.Lower at *
  omega

namespace MergeIndex

/-- The room that merges have for further members. -/
noncomputable def room (m : Method) (x : MergeIndex) : Nat :=
  ∑ s ∈ m.slots, (m.memberBound - x.count s)

/-- The weight of all members. -/
noncomputable def memberWeight (m : Method) (x : MergeIndex) : Nat :=
  ∑ s ∈ m.slots, ((x.members s).map (x.weight m)).sum

/-- The cost of values and merges. -/
noncomputable def cost (m : Method) (x : MergeIndex) (vs : List FlowValue) : Cost where
  grades := (vs.map FlowValue.grade).sum
  room := x.room m
  weight := (vs.map (x.weight m)).sum + x.memberWeight m
  types := (vs.map fun v => typeRoom v.ty?).sum

theorem cost_perm (m : Method) (x : MergeIndex) {vs ws : List FlowValue} (h : vs.Perm ws) :
    x.cost m vs = x.cost m ws := by
  unfold cost
  rw [(h.map _).sum_eq, (h.map (x.weight m)).sum_eq, (h.map fun v => typeRoom v.ty?).sum_eq]

section

variable {m : Method} {x x' : MergeIndex}

theorem standing_congr (hj : ∀ s t, x'.Joins s t ↔ x.Joins s t) (hc : ∀ t, x'.count t = x.count t)
    (t : MergeSlot) : x'.standing m t = x.standing m t := by
  have hjoins : x'.Joins = x.Joins := funext fun s => funext fun t => propext (hj s t)
  have hbelow : x'.below m t = x.below m t := by
    ext s
    rw [mem_below, mem_below, hjoins]
  unfold standing
  rw [hbelow, hc]

theorem weight_congr (h : ∀ t, x'.standing m t = x.standing m t) (v : FlowValue) :
    x'.weight m v = x.weight m v := by
  induction v with
  | merged t s => simp only [weight, h]
  | copy k v ih => simp only [weight, ih]
  | cast t k v ih => simp only [weight, ih]
  | _ => rfl

/-- The cost depends on the members of the merges alone. -/
theorem cost_congr (h : ∀ t, x'.members t = x.members t) (vs : List FlowValue) :
    x'.cost m vs = x.cost m vs := by
  have hcount : ∀ t, x'.count t = x.count t := fun t => by unfold count; rw [h]
  have hweight : x'.weight m = x.weight m :=
    funext (weight_congr (standing_congr (fun s t => by unfold Joins; rw [h]) hcount))
  unfold cost room memberWeight
  simp only [hcount, hweight, h]

/-! ## 3. One more member -/

theorem members_remove (x : MergeIndex) (slot t : MergeSlot) :
    (x.remove slot).members t = [] ∨ (x.remove slot).members t = x.members t := by
  unfold members remove
  by_cases h : t = slot
  · refine Or.inl ?_
    have hnone : (x.entries.filter fun e => e.1 ≠ slot).lookup t = none := by
      rw [List.lookup_eq_none_iff]
      intro e he
      have hne : e.1 ≠ slot := by simpa using (List.mem_filter.mp he).2
      simpa [h] using Ne.symm hne
    simp only [hnone, Option.getD_none]
  · exact Or.inr (by rw [lookup_filter_ne t slot h])

/-- A new member takes the place of one that it covers, or comes last, or is not needed. -/
theorem absorb_cases (y : MergeIndex) {w : FlowValue} : ∀ {ms : List FlowValue}, w ∉ ms →
    y.absorb w ms = ms ∨
    (∃ before u behind, ms = before ++ u :: behind ∧ y.absorb w ms = before ++ w :: behind ∧
      w ≠ u ∧ y.covers w u = true ∧ ¬ y.covers u w = true) ∨
    y.absorb w ms = ms ++ [w] := by
  intro ms
  induction ms with
  | nil => intro _; exact Or.inr (Or.inr rfl)
  | cons u ms ih =>
    intro hw
    obtain ⟨hne, hw⟩ := not_or.mp (mt List.mem_cons.mpr hw)
    unfold absorb covering?
    by_cases huw : y.covers u w = true
    · simp [huw]
    · by_cases hwu : y.covers w u = true
      · refine Or.inr (Or.inl ⟨[], u, ms, rfl, ?_, hne, hwu, huw⟩)
        simp [huw, hwu, Ne.symm hne]
      · simp only [huw, hwu, Ne.symm hne, decide_false, Bool.or_false, Bool.false_eq_true, if_false]
        rcases ih hw with h | ⟨before, u', behind, hms, h, hrest⟩ | h
        · exact Or.inl (by rw [h])
        · refine Or.inr (Or.inl ⟨u :: before, u', behind, by rw [hms]; rfl, by rw [h]; rfl, hrest⟩)
        · exact Or.inr (Or.inr (by rw [h]; rfl))

section

variable {slot : MergeSlot}

/-- More members of one slot leave less room. -/
theorem room_lt (hx' : Founded m x') (hslot : slot ∈ m.slots)
    (h : ∀ t, t ≠ slot → x'.members t = x.members t) (hlt : x.count slot < x'.count slot) :
    x'.room m < x.room m := by
  have hbound := hx'.count_le slot
  refine Finset.sum_lt_sum (fun t _ => ?_) ⟨slot, hslot, by omega⟩
  by_cases ht : t = slot
  · subst ht
    omega
  · have : x'.count t = x.count t := by unfold count; rw [h t ht]
    omega

/-- The members of one slot weigh less if one of them does. -/
theorem memberWeight_lt (hslot : slot ∈ m.slots) (h : ∀ t, t ≠ slot → x'.members t = x.members t)
    (hweight : x'.weight m = x.weight m)
    (hlt : ((x'.members slot).map (x.weight m)).sum < ((x.members slot).map (x.weight m)).sum) :
    x'.memberWeight m < x.memberWeight m := by
  unfold memberWeight
  rw [hweight]
  refine Finset.sum_lt_sum (fun t _ => ?_) ⟨slot, hslot, hlt⟩
  by_cases ht : t = slot
  · subst ht
    exact Nat.le_of_lt hlt
  · rw [h t ht]

/-- Putting a new value in the place of another one makes no fewer values. -/
theorem card_replaced {before behind : List FlowValue} {u w : FlowValue}
    (hw : w ∉ before ++ u :: behind) :
    (before ++ u :: behind).toFinset.card ≤ (before ++ w :: behind).toFinset.card := by
  have hsplit : ∀ v, (before ++ v :: behind).toFinset = insert v (before ++ behind).toFinset := by
    intro v
    ext a
    simp only [List.mem_toFinset, List.mem_append, List.mem_cons, Finset.mem_insert]
    tauto
  have hnot : w ∉ (before ++ behind).toFinset := by
    simp only [List.mem_toFinset, List.mem_append, List.mem_cons, not_or] at hw ⊢
    exact ⟨hw.1, hw.2.2⟩
  rw [hsplit, hsplit, Finset.card_insert_of_notMem hnot]
  exact Finset.card_insert_le u _

/-- How the merges change when a slot gets one more member. -/
inductive Extended (m : Method) (x x' : MergeIndex) : Prop where
  | same (h : ∀ t, x'.members t = x.members t)
  | filled (h : x'.room m < x.room m)
  | lighter (hroom : x'.room m = x.room m) (hweight : x'.weight m = x.weight m)
      (h : x'.memberWeight m < x.memberWeight m)

/-- **One more member** leaves less room, or the members weigh less, unless it is not needed. -/
theorem Founded.extended (hx : Founded m x) {w : FlowValue} (hslot : slot ∈ m.slots)
    (hw : ∀ t s, w ≠ .merged t s) (hnew : w ∉ x.members slot)
    (hx' : Founded m (x.put slot ((x.remove slot).absorb w (x.members slot)))) :
    Extended m x (x.put slot ((x.remove slot).absorb w (x.members slot))) := by
  have hothers : ∀ ms t, t ≠ slot → (x.put slot ms).members t = x.members t := by
    intro ms t ht
    rw [members_put, if_neg ht]
  have hhere : ∀ ms, (x.put slot ms).members slot = ms := fun ms => by rw [members_put, if_pos rfl]
  rcases absorb_cases (x.remove slot) hnew with h | ⟨before, u, behind, hms, h, hne, hwu, huw⟩ | h
  · refine .same fun t => ?_
    rw [h, members_put]
    split
    · rename_i ht
      rw [ht]
    · rfl
  · rw [h] at hx' ⊢
    have hcount : x.count slot ≤ (x.put slot (before ++ w :: behind)).count slot := by
      unfold count
      rw [hhere, hms]
      exact card_replaced (hms ▸ hnew)
    rcases Nat.lt_or_eq_of_le hcount with hlt | heq
    · exact .filled (room_lt hx' hslot (hothers _) hlt)
    · have hcounts : ∀ t, (x.put slot (before ++ w :: behind)).count t = x.count t := by
        intro t
        by_cases ht : t = slot
        · rw [ht, heq]
        · unfold count
          rw [hothers _ t ht]
      -- neither the old nor the new member is a merge
      have hu : ∀ t s, u ≠ .merged t s := by
        rintro t s rfl
        cases w with
        | merged t' s' => exact hw t' s' rfl
        | _ => simp [covers] at hwu
      have hjoins : ∀ s t, (x.put slot (before ++ w :: behind)).Joins s t ↔ x.Joins s t := by
        intro s t
        unfold Joins
        by_cases ht : t = slot
        · rw [ht, hhere, hms]
          refine exists_congr fun ty => ?_
          have hw' := Ne.symm (hw ty s)
          have hu' := Ne.symm (hu ty s)
          simp only [List.mem_append, List.mem_cons, hw', hu', false_or]
        · rw [hothers _ t ht]
      have hweight : (x.put slot (before ++ w :: behind)).weight m = x.weight m :=
        funext (weight_congr (standing_congr hjoins hcounts))
      refine .lighter ?_ hweight (memberWeight_lt hslot (hothers _) hweight ?_)
      · unfold room
        simp only [hcounts]
      · have hlt := hx.weight_lt_of_covers (members_remove x slot) hwu hne huw
        rw [hhere, hms]
        simp only [List.map_append, List.map_cons, List.sum_append, List.sum_cons]
        omega
  · rw [h] at hx' ⊢
    refine .filled (room_lt hx' hslot (hothers _) ?_)
    unfold count
    rw [hhere, List.toFinset_append, List.toFinset_cons, List.toFinset_nil, Finset.union_comm,
      Finset.insert_union, Finset.empty_union, Finset.card_insert_of_notMem]
    · omega
    · exact fun hmem => hnew (List.mem_toFinset.mp hmem)

end

/-! ## 4. One merge -/

section

variable {slot : MergeSlot} {v w r : FlowValue}

/-- The cost of values of which the first changes. -/
theorem cost_cons (m : Method) (x : MergeIndex) (v : FlowValue) (rest : List FlowValue) :
    x.cost m (v :: rest) =
      ⟨v.grade + (rest.map FlowValue.grade).sum, x.room m,
        x.weight m v + (rest.map (x.weight m)).sum + x.memberWeight m,
        typeRoom v.ty? + (rest.map fun v => typeRoom v.ty?).sum⟩ := rfl

theorem lower_of_grade {rest : List FlowValue} (h : r.grade < v.grade) :
    (x'.cost m (r :: rest)).Lower (x.cost m (v :: rest)) := by
  rw [cost_cons, cost_cons]
  exact Or.inl (Nat.add_lt_add_right h _)

/-- A merge that takes one more member. -/
theorem Founded.lower_of_here (hx : Founded m x) (hx' : Founded m x') (hslot : slot ∈ m.slots)
    {t tv : Ty} (hne : x.members slot ≠ []) (hvw : ¬ x.covers (.merged tv slot) w = true)
    (hty : mergeTypes (some tv) w.ty? = some t)
    (hat : x.mergeAt? slot (.merged tv slot) w = some x') (rest : List FlowValue) :
    (x'.cost m (.merged t slot :: rest)).Lower (x.cost m (.merged tv slot :: rest)) ∨
      FlowValue.merged t slot = .merged tv slot ∧ ∀ s, x'.members s = x.members s := by
  rw [covers_merged_iff, not_or] at hvw
  obtain ⟨hnew, hvw⟩ := hvw
  rcases mergeAt?_cases hat with ⟨hnil, -⟩ | ⟨-, -, hew, rfl⟩
  · exact absurd hnil hne
  -- what arrives is no merge at all
  have hhere : isHere slot w = false := by
    cases w with
    | merged tw s =>
      simp only [isHere, decide_eq_false_iff_not]
      rintro rfl
      exact hvw ⟨tw, s, rfl, hne, fun u hu => hu⟩
    | _ => rfl
  have hself : isHere slot (.merged tv slot) = true := by simp [isHere]
  have harriving : arriving slot (.merged tv slot) w = [w] := by simp [arriving, hself, hhere]
  rw [harriving] at hx' ⊢
  simp only [List.foldl_cons, List.foldl_nil] at hx' ⊢
  cases hx.extended hslot (not_merged hhere hew) hnew hx' with
  | same h =>
    rcases typeRoom_mergeTypes (some tv) w.ty? with hlt | heq
    · refine Or.inl ?_
      rw [hty] at hlt
      rw [cost_congr h, cost_cons, cost_cons]
      exact Or.inr ⟨rfl, Or.inr ⟨rfl, Or.inr ⟨rfl, Nat.add_lt_add_right hlt _⟩⟩⟩
    · cases hty.symm.trans heq
      exact Or.inr ⟨rfl, h⟩
  | filled h =>
    rw [cost_cons, cost_cons]
    exact Or.inl (Or.inr ⟨rfl, Or.inl h⟩)
  | lighter hroom hweight h =>
    rw [cost_cons, cost_cons, hweight]
    exact Or.inl (Or.inr ⟨rfl, Or.inr ⟨hroom, Or.inl (Nat.add_lt_add_left h _)⟩⟩)

/-- A merge of another slot becomes one of the two first members of a slot. -/
theorem Founded.lower_of_elsewhere (hx' : Founded m x') (hslot : slot ∈ m.slots) {t tv : Ty}
    {s : MergeSlot} (hs : s ≠ slot) (hat : x.mergeAt? slot (.merged tv s) w = some x')
    (rest : List FlowValue) :
    (x'.cost m (.merged t slot :: rest)).Lower (x.cost m (.merged tv s :: rest)) := by
  have helse : isElsewhere slot (.merged tv s) = true := by simp [isElsewhere, hs]
  rcases mergeAt?_cases hat with ⟨hnil, rfl⟩ | ⟨-, hev, -, -⟩
  · have hcount : x.count slot = 0 := by simp [count, hnil]
    have hhere : isHere slot (.merged tv s) = false := by simp [isHere, hs]
    have hroom : (x.put slot (arriving slot (.merged tv s) w)).room m < x.room m := by
      refine room_lt hx' hslot (fun u hu => by rw [members_put, if_neg hu]) ?_
      rw [hcount]
      refine Finset.card_pos.mpr ⟨.merged tv s, List.mem_toFinset.mpr ?_⟩
      rw [members_put, if_pos rfl]
      exact List.mem_filter.mpr ⟨List.mem_cons_self, by rw [hhere]; rfl⟩
    rw [cost_cons, cost_cons]
    exact Or.inr ⟨rfl, Or.inl hroom⟩
  · exact absurd (helse.symm.trans hev) (by simp)

theorem layers_pos (h : ∀ t s, v ≠ .merged t s) : 0 < v.layers := by
  cases v with
  | merged t s => exact absurd rfl (h t s)
  | copy k v => exact Nat.succ_pos _
  | cast t k v => exact Nat.succ_pos _
  | _ => exact Nat.one_pos

/-- What comes out of two values lowers the cost, or is what was there. -/
theorem Step.lower_or (h : Step x slot v w r x') (hx : Founded m x) (hslot : slot ∈ m.slots)
    (hv : Permitted m (m.insns.length + 1) v) (hvb : x.Backed v)
    (hw : Permitted m (m.insns.length + 1) w) (hwb : x.Backed w) (rest : List FlowValue) :
    (x'.cost m (r :: rest)).Lower (x.cost m (v :: rest)) ∨
      r = v ∧ ∀ t, x'.members t = x.members t := by
  have hx' : Founded m x' := hx.step h hv hvb hw hwb
  cases h with
  | kept _ => exact Or.inr ⟨rfl, fun _ => rfl⟩
  | replaced htv htw hne hc hnot =>
    refine Or.inl ?_
    have hgrade : w.grade ≤ v.grade := by
      rw [FlowValue.grade_of_trackable htv, FlowValue.grade_of_trackable htw]
      exact Nat.add_le_add_left (covers_layers hc) 4
    rcases Nat.lt_or_eq_of_le hgrade with hlt | heq
    · exact lower_of_grade hlt
    · have hweight := hx.weight_lt_of_covers (fun t => Or.inr rfl) hc hne hnot
      rw [cost_cons, cost_cons, heq]
      refine Or.inr ⟨rfl, Or.inr ⟨rfl, Or.inl ?_⟩⟩
      simp only
      omega
  | forgotten =>
    rcases hv with ⟨tv, rfl⟩ | hv
    · rcases typeRoom_mergeTypes tv w.ty? with hlt | heq
      · exact Or.inl (lower_of_grade hlt)
      · exact Or.inr ⟨congrArg FlowValue.untrackable heq, fun _ => rfl⟩
    · refine Or.inl (lower_of_grade ?_)
      rw [FlowValue.grade_of_trackable hv.mayBeTrackable]
      have := typeRoom_le (mergeTypes v.ty? w.ty?)
      simp only [FlowValue.grade]
      omega
  | joined htv _ _ hvw hty hat =>
    by_cases hmerged : ∀ t s, v ≠ .merged t s
    · refine Or.inl (lower_of_grade ?_)
      have := layers_pos hmerged
      rw [FlowValue.grade_of_trackable htv]
      simp only [FlowValue.grade, FlowValue.layers]
      omega
    · simp only [ne_eq, not_forall, not_not] at hmerged
      obtain ⟨tv, s, rfl⟩ := hmerged
      by_cases hs : s = slot
      · subst hs
        exact hx.lower_of_here hx' hslot (hvb tv s rfl) hvw hty hat rest
      · exact Or.inl (hx'.lower_of_elsewhere hslot hs hat rest)

/-- Whatever other values there are, new values and merges cost less than the old ones, or they are
the same. -/
def Lowers (m : Method) (x : MergeIndex) (vs : List FlowValue) (x' : MergeIndex)
    (vs' : List FlowValue) : Prop :=
  (∀ rest, (x'.cost m (vs' ++ rest)).Lower (x.cost m (vs ++ rest))) ∨
    vs' = vs ∧ ∀ t, x'.members t = x.members t

/-- **A merge lowers the cost, or changes nothing.** -/
theorem Step.lowers (h : Step x slot v w r x') (hx : Founded m x) (hslot : slot ∈ m.slots)
    (hv : Permitted m (m.insns.length + 1) v) (hvb : x.Backed v)
    (hw : Permitted m (m.insns.length + 1) w) (hwb : x.Backed w) : Lowers m x [v] x' [r] := by
  rcases forall_or_right.mp fun rest => h.lower_or hx hslot hv hvb hw hwb
    rest with hlower | ⟨hr, hsame⟩
  · exact Or.inl hlower
  · exact Or.inr ⟨by rw [hr], hsame⟩

theorem Lowers.trans {x'' : MergeIndex} {us vs ws : List FlowValue} (h : Lowers m x us x' vs)
    (h' : Lowers m x' vs x'' ws) : Lowers m x us x'' ws := by
  rcases h with h | ⟨rfl, h⟩
  · rcases h' with h' | ⟨rfl, h'⟩
    · exact Or.inl fun rest => (h' rest).trans (h rest)
    · exact Or.inl fun rest => cost_congr h' (ws ++ rest) ▸ h rest
  · rcases h' with h' | ⟨rfl, h'⟩
    · exact Or.inl fun rest => cost_congr h (vs ++ rest) ▸ h' rest
    · exact Or.inr ⟨rfl, fun t => (h' t).trans (h t)⟩

theorem cost_among (m : Method) (x : MergeIndex) (us vs ws : List FlowValue) :
    x.cost m (us ++ vs ++ ws) = x.cost m (vs ++ (us ++ ws)) := by
  refine cost_perm m x ?_
  rw [List.append_assoc]
  exact List.perm_append_comm_assoc us vs ws

/-- Values that stay the same do not matter. -/
theorem Lowers.among {vs vs' : List FlowValue} (h : Lowers m x vs x' vs') (us ws : List FlowValue) :
    Lowers m x (us ++ vs ++ ws) x' (us ++ vs' ++ ws) := by
  rcases h with h | ⟨rfl, h⟩
  · refine Or.inl fun rest => ?_
    rw [List.append_assoc _ ws, List.append_assoc _ ws, cost_among, cost_among]
    exact h _
  · exact Or.inr ⟨rfl, h⟩

end

end

end MergeIndex

end Provenance
