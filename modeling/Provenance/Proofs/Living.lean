/-
# What is held is alive

The dead are found by counting.  An object that nobody refers to is buried, and the references that
it made no longer count; so at any time the counts are those of the references from outside and from
the objects that are not buried (`Heap.Burying`).  Nothing is buried twice, since what is about to
be buried has no count left, and a count goes to zero only once.  Hence what is held outside is
never among the dead (`Heap.isAlive_of_held`).

References are counted by place, which for object `o` is `o - 1`; a reference to a number that was
never given out counts for nothing that anybody looks at.
-/
import Mathlib.Data.List.Flatten
import Mathlib.Data.List.Nodup
import Provenance.Machine.World

namespace Provenance

namespace Heap

/-! ## 1. Counting references -/

/-- How many references go to a place. -/
def referencesTo (references : List ObjectId) (place : Nat) : Nat :=
  references.countP fun o => o - 1 = place

theorem referencesTo_append (references more : List ObjectId) (place : Nat) :
    referencesTo (references ++ more) place =
      referencesTo references place + referencesTo more place :=
  List.countP_append

theorem referencesTo_cons (o : ObjectId) (references : List ObjectId) (place : Nat) :
    referencesTo (o :: references) place =
      referencesTo references place + if o - 1 = place then 1 else 0 := by
  simp [referencesTo, List.countP_cons]

/-- Counts of references, by place. -/
structure Counts (n : Nat) (counts : Array Nat) (references : List ObjectId) : Prop where
  size : counts.size = n
  count : ∀ place < n, counts.getD place 0 = referencesTo references place

theorem getD_modify (counts : Array Nat) (i place : Nat) (f : Nat → Nat)
    (hplace : place < counts.size) :
    (counts.modify i f).getD place 0 = if i = place then f (counts.getD place 0)
      else counts.getD place 0 := by
  simp only [Array.getD_eq_getD_getElem?, Array.getElem?_modify, Array.getElem?_eq_getElem hplace]
  split <;> rfl

theorem getD_setIfInBounds (counts : Array Nat) (i count place : Nat)
    (hplace : place < counts.size) :
    (counts.setIfInBounds i count).getD place 0 = if i = place then count
      else counts.getD place 0 := by
  simp only [Array.getD_eq_getD_getElem?, Array.getElem?_setIfInBounds]
  split
  · rename_i heq
    rw [if_pos (heq ▸ hplace)]
    rfl
  · rfl

namespace Counts

variable {n : Nat} {counts counts' : Array Nat} {references references' : List ObjectId}

theorem perm (h : Counts n counts references) (hperm : references.Perm references') :
    Counts n counts references' :=
  ⟨h.size, fun place hplace => (h.count place hplace).trans (hperm.countP_eq _)⟩

/-- Outside of the places nothing is counted. -/
theorem getD_of_le (h : Counts n counts references) {place : Nat} (hplace : n ≤ place) :
    counts.getD place 0 = 0 := by
  simp [Array.getD_eq_getD_getElem?, Array.getElem?_eq_none (h.size ▸ hplace)]

/-- Fewer references, lower counts. -/
theorem getD_le (h : Counts n counts references) (h' : Counts n counts' references')
    (hle : ∀ place, referencesTo references' place ≤ referencesTo references place) (place : Nat) :
    counts'.getD place 0 ≤ counts.getD place 0 := by
  rcases Nat.lt_or_ge place n with hplace | hplace
  · rw [h.count place hplace, h'.count place hplace]
    exact hle place
  · rw [h'.getD_of_le hplace]
    exact Nat.zero_le _

theorem zero (n : Nat) : Counts n (Array.replicate n 0) [] where
  size := Array.size_replicate
  count place hplace := by simp [Array.getD_eq_getD_getElem?, hplace, referencesTo]

theorem countUp (h : Counts n counts references) (o : ObjectId) :
    Counts n (Heap.countUp counts o) (o :: references) where
  size := Array.size_modify.trans h.size
  count place hplace := by
    unfold Heap.countUp
    rw [getD_modify _ _ _ _ (h.size ▸ hplace), h.count place hplace, referencesTo_cons]
    split <;> rfl

theorem countAll (os : List ObjectId) : ∀ {counts : Array Nat} {references : List ObjectId},
    Counts n counts references → Counts n (os.foldl Heap.countUp counts) (os ++ references) := by
  induction os with
  | nil => exact fun h => h
  | cons o os ih => exact fun h => (ih (h.countUp o)).perm List.perm_middle

theorem countEach (f : ObjectId → List ObjectId) (os : List ObjectId) :
    ∀ {counts : Array Nat} {references : List ObjectId}, Counts n counts references →
    Counts n (os.foldl (fun counts o => (f o).foldl Heap.countUp counts) counts)
      (os.flatMap f ++ references) := by
  induction os with
  | nil => exact fun h => h
  | cons o os ih =>
    intro counts references h
    refine (ih (h.countAll (f o))).perm ?_
    rw [List.flatMap_cons, List.append_assoc, ← List.append_assoc]
    exact (List.perm_append_comm.append_right references).trans (List.append_assoc _ _ _ ▸ .refl _)

/-- **Taking references away**: those whose count goes to zero are found once each. -/
theorem release (os : List ObjectId) : ∀ {counts : Array Nat}, Counts n counts (os ++ references) →
    Counts n (Heap.release counts os).1 references ∧
      ((Heap.release counts os).2.map (· - 1)).Nodup ∧
      ∀ o ∈ (Heap.release counts os).2, 0 < counts.getD (o - 1) 0 ∧
        (Heap.release counts os).1.getD (o - 1) 0 = 0 := by
  induction os with
  | nil => exact fun h => ⟨h, List.nodup_nil, nofun⟩
  | cons o os ih =>
    intro counts h
    have hlower : Counts n (counts.setIfInBounds (o - 1) (counts.getD (o - 1) 0 - 1))
        (os ++ references) := by
      refine ⟨Array.size_setIfInBounds.trans h.size, fun place hplace => ?_⟩
      have hcount := h.count place hplace
      rw [List.cons_append, referencesTo_cons] at hcount
      rw [getD_setIfInBounds _ _ _ _ (h.size ▸ hplace)]
      split
      · rename_i heq
        rw [heq, hcount, if_pos heq]
        rfl
      · rename_i hne
        rw [hcount, if_neg hne]
        rfl
    have hle := h.getD_le hlower fun place => by
      rw [List.cons_append, referencesTo_cons]
      exact Nat.le_add_right _ _
    obtain ⟨hcounts, hnodup, hdead⟩ := ih hlower
    have hafter := hlower.getD_le hcounts fun place => by
      rw [referencesTo_append]
      exact Nat.le_add_left _ _
    have hdead' :
        ∀ x ∈ (Heap.release (counts.setIfInBounds (o - 1) (counts.getD (o - 1) 0 - 1)) os).2,
        0 < counts.getD (x - 1) 0 ∧ (Heap.release (counts.setIfInBounds (o - 1)
          (counts.getD (o - 1) 0 - 1)) os).1.getD (x - 1) 0 = 0 :=
      fun x hx => ⟨Nat.lt_of_lt_of_le (hdead x hx).1 (hle _), (hdead x hx).2⟩
    simp only [Heap.release]
    refine ⟨hcounts, ?_⟩
    split
    · rename_i hone
      -- the last reference to this one, so it has no count left for the others to take
      have hplace : o - 1 < counts.size := by
        refine Nat.lt_of_not_le fun hle => ?_
        rw [h.getD_of_le (h.size ▸ hle)] at hone
        cases hone
      have hgone : (counts.setIfInBounds (o - 1) (counts.getD (o - 1) 0 - 1)).getD (o - 1) 0 =
          0 := by
        rw [getD_setIfInBounds _ _ _ _ hplace, if_pos rfl, hone]
      constructor
      · rw [List.map_cons, List.nodup_cons]
        refine ⟨fun hmem => ?_, hnodup⟩
        obtain ⟨x, hx, hsame⟩ := List.mem_map.mp hmem
        have hpositive := (hdead x hx).1
        rw [hsame, hgone] at hpositive
        exact Nat.lt_irrefl 0 hpositive
      · intro x hx
        rcases List.mem_cons.mp hx with rfl | hx
        · have hfinal := hafter (x - 1)
          rw [hgone] at hfinal
          exact ⟨by omega, Nat.le_zero.mp hfinal⟩
        · exact hdead' x hx
    · exact ⟨hnodup, hdead'⟩

end Counts

/-! ## 2. Burying the dead -/

/-- Where burying has got to: `left` are the objects whose references still count, and `todo` those
that are about to be buried. -/
structure Burying (h : Heap) (outside left todo : List ObjectId) (counts : Array Nat) : Prop where
  counted : Counts h.objects.ids.length counts
    (outside ++ left.flatMap fun o => (h.object o).references)
  dead : ∀ o ∈ todo, counts.getD (o - 1) 0 = 0
  buried : ∀ o ∈ h.objects.ids, o ∉ left → counts.getD (o - 1) 0 = 0
  left : ∀ o ∈ todo, o ∈ h.objects.ids → o ∈ left
  nodup : (todo.map (· - 1)).Nodup

/-- What was never there refers to nothing. -/
theorem references_of_not_mem {h : Heap} {o : ObjectId} (ho : o ∉ h.objects.ids) :
    (h.object o).references = [] := by
  have hnone : h.objects.get? o = none := by
    rw [← Option.not_isSome_iff_eq_none]
    exact fun hsome => ho (Table.mem_ids hsome)
  simp [object, hnone, HeapObject.references, HeapObject.contents]

namespace Burying

variable {h : Heap} {outside left rest : List ObjectId} {counts : Array Nat} {o : ObjectId}

/-- An object's references are taken out of those that count. -/
theorem exists_left (hb : Burying h outside left (o :: rest) counts) : ∃ left' : List ObjectId,
    (left.flatMap fun o => (h.object o).references).Perm
      ((h.object o).references ++ left'.flatMap fun o => (h.object o).references) ∧
    (∀ x ∈ left, x ≠ o → x ∈ left') ∧ ∀ x, x ∉ left' → x ∉ left ∨ x = o := by
  by_cases ho : o ∈ h.objects.ids
  · have hleft := hb.left o List.mem_cons_self ho
    refine ⟨left.erase o, ?_, fun x hx hne => (List.mem_erase_of_ne hne).mpr hx, fun x hx => ?_⟩
    · exact (List.perm_cons_erase hleft).flatMap_right _
    · by_cases heq : x = o
      · exact .inr heq
      · exact .inl fun hmem => hx ((List.mem_erase_of_ne heq).mpr hmem)
  · refine ⟨left, ?_, fun x hx _ => hx, fun x hx => .inl hx⟩
    rw [references_of_not_mem ho]
    exact .refl _

/-- **One burial.** -/
theorem step (hb : Burying h outside left (o :: rest) counts) : ∃ left',
    Burying h outside left' ((release counts (h.object o).references).2 ++ rest)
      (release counts (h.object o).references).1 := by
  obtain ⟨left', hperm, hkept, hgone⟩ := hb.exists_left
  have hbefore : Counts h.objects.ids.length counts
      ((h.object o).references ++ (outside ++ left'.flatMap fun o => (h.object o).references)) := by
    refine hb.counted.perm ?_
    refine (hperm.append_left outside).trans ?_
    rw [← List.append_assoc, ← List.append_assoc]
    exact List.perm_append_comm.append_right _
  obtain ⟨hcounts, hnodup, hdead⟩ := hbefore.release
  have hle := hbefore.getD_le hcounts fun place => by
    rw [referencesTo_append (h.object o).references]
    exact Nat.le_add_left _ _
  have hzero : ∀ {x : ObjectId}, counts.getD (x - 1) 0 = 0 →
      (release counts (h.object o).references).1.getD (x - 1) 0 = 0 := fun {x} hx =>
    Nat.le_zero.mp (Nat.le_trans (hle (x - 1)) (Nat.le_of_eq hx))
  have hnow := hb.nodup
  rw [List.map_cons, List.nodup_cons] at hnow
  refine ⟨left', hcounts, fun x hx => ?_, fun x hx hxleft => ?_, fun x hx hids => ?_, ?_⟩
  · rcases List.mem_append.mp hx with hx | hx
    · exact (hdead x hx).2
    · exact hzero (hb.dead x (List.mem_cons_of_mem o hx))
  · rcases hgone x hxleft with hxleft | rfl
    · exact hzero (hb.buried x hx hxleft)
    · exact hzero (hb.dead x List.mem_cons_self)
  · rcases List.mem_append.mp hx with hnew | hrest
    · -- it had a count before, so it is neither buried nor the one that was buried just now
      have hpositive := (hdead x hnew).1
      refine hkept x ?_ ?_
      · by_contra hxleft
        rw [hb.buried x hids hxleft] at hpositive
        exact Nat.lt_irrefl 0 hpositive
      · rintro rfl
        rw [hb.dead x List.mem_cons_self] at hpositive
        exact Nat.lt_irrefl 0 hpositive
    · refine hkept x (hb.left x (List.mem_cons_of_mem o hrest) hids) ?_
      rintro rfl
      exact hnow.1 (List.mem_map_of_mem hrest)
  · rw [List.map_append, List.nodup_append]
    refine ⟨hnodup, hnow.2, fun a ha b hb' heq => ?_⟩
    obtain ⟨x, hx, rfl⟩ := List.mem_map.mp ha
    obtain ⟨y, hy, rfl⟩ := List.mem_map.mp hb'
    have hpositive := (hdead x hx).1
    rw [heq, hb.dead y (List.mem_cons_of_mem o hy)] at hpositive
    exact Nat.lt_irrefl 0 hpositive

/-- **All burials.** -/
theorem bury : ∀ (fuel : Nat) {left todo : List ObjectId} {counts : Array Nat},
    Burying h outside left todo counts → ∃ left' : List ObjectId,
    Counts h.objects.ids.length (h.bury fuel counts todo)
      (outside ++ left'.flatMap fun o => (h.object o).references) := by
  intro fuel
  induction fuel with
  | zero => exact fun hb => ⟨_, hb.counted⟩
  | succ fuel ih =>
    intro left todo counts hb
    cases todo with
    | nil => exact ⟨left, hb.counted⟩
    | cons o rest =>
      obtain ⟨left', hnext⟩ := hb.step
      exact ih hnext

/-- At the beginning all references count. -/
theorem start (h : Heap) (outside : List ObjectId) :
    let fromOutside := outside.foldl countUp (Array.replicate h.objects.ids.length 0)
    let all :=
      h.objects.ids.foldl (fun counts o => (h.object o).references.foldl countUp counts) fromOutside
    Burying h outside h.objects.ids (h.objects.ids.filter fun o => all.getD (o - 1) 0 = 0) all := by
  intro fromOutside all
  have hcounts : Counts h.objects.ids.length all
      (outside ++ h.objects.ids.flatMap fun o => (h.object o).references) := by
    have hall := (((Counts.zero h.objects.ids.length).countAll outside).countEach
      (fun o => (h.object o).references) h.objects.ids)
    rw [List.append_nil] at hall
    exact hall.perm List.perm_append_comm
  refine ⟨hcounts, fun o ho => by simpa using (List.mem_filter.mp ho).2,
    fun o ho hleft => absurd ho hleft,
    fun o _ ho => ho, ?_⟩
  have hplaces : (h.objects.ids.map (· - 1)).Nodup := by
    have hrange : h.objects.ids.map (· - 1) = List.range h.objects.slots.size := by
      simp [Table.ids, Function.comp_def]
    rw [hrange]
    exact List.nodup_range
  exact hplaces.sublist (List.filter_sublist.map _)

end Burying

/-- **What is held is alive.** -/
theorem isAlive_of_held {h : Heap} {held : List Value} {o : ObjectId}
    (ho : (h.objects.get? o).isSome) (hheld : .ref o ∈ held) : h.isAlive held o = true := by
  have hplace : o - 1 < h.objects.ids.length := by
    have hpositive : 0 < o := by
      refine Nat.pos_of_ne_zero ?_
      rintro rfl
      simp [Table.get?] at ho
    simp only [Table.ids, List.length_map, List.length_range]
    exact Nat.lt_of_lt_of_le (Nat.sub_lt hpositive Nat.one_pos)
      (Nat.le_of_lt_succ (Table.lt_nextId ho))
  have houtside : o ∈ held.filterMap Value.object? := List.mem_filterMap.mpr ⟨.ref o, hheld, rfl⟩
  obtain ⟨left, hcounts⟩ :=
    (Burying.start h (held.filterMap Value.object?)).bury h.objects.ids.length
  have hpositive : 0 < referencesTo (held.filterMap Value.object?) (o - 1) :=
    List.countP_pos_iff.mpr ⟨o, houtside, by simp⟩
  have hcount := hcounts.count (o - 1) hplace
  rw [referencesTo_append] at hcount
  unfold isAlive counts
  simp only [ne_eq, decide_eq_true_eq]
  omega

end Heap

/-- An object that is in use is alive. -/
theorem World.alive_of_inUse {w : World} {inUse : Thunk (List Value)} {o : ObjectId}
    (ho : (w.heap.objects.get? o).isSome) (hinUse : .ref o ∈ inUse.get) :
    w.alive inUse o = true := by
  unfold World.alive
  rw [Heap.alive_eq]
  exact Heap.isAlive_of_held ho (List.mem_append_left _ hinUse)

/-- So is one that is held, whatever else is in use. -/
theorem World.alive_of_held {w : World} {inUse : Thunk (List Value)} {o : ObjectId}
    (ho : (w.heap.objects.get? o).isSome) (hheld : .ref o ∈ w.held) : w.alive inUse o = true := by
  unfold World.alive
  rw [Heap.alive_eq]
  exact Heap.isAlive_of_held ho (List.mem_append_right _ (List.mem_append_left _ hheld))

end Provenance
