/-
# What spares fields

The point of a field value is kept under the object and the key of the field, the value itself under
the object and the name (`Store.notedPoint_setFieldPoint`, `Heap.fieldsOf?_putField`).  Nothing else
touches the fields of an instance or what is known of them: neither other instructions nor strings
and arrays that are made, nor the built-in natives (`World.SparesFields`).
-/
import Provenance.Proofs.HookEffects
import Provenance.Proofs.Sparing

namespace Provenance

open Provenance.Action (Wp)

/-! ## 1. Points and fields of an object -/

namespace Store

theorem lookup_putPoint (key key' : String) (p : Point) (points : List (String × Point)) :
    (putPoint key p points).lookup key' = if key' = key then some p else points.lookup key' := by
  induction points with
  | nil => simp [putPoint, lookup_cons_eq]
  | cons e points ih =>
    obtain ⟨k, q⟩ := e
    unfold putPoint
    split <;> grind [lookup_cons_eq]

theorem lookup_dropPoint (key key' : String) (points : List (String × Point)) :
    (points.filter fun e => e.1 ≠ key).lookup key' = if key' = key then none
      else points.lookup key' := by
  rw [lookup_filter_eq (fun k => k ≠ key)]
  by_cases h : key' = key <;> simp [h]

/-- What the store knows of a field, whether tracking is on or not. -/
def notedPoint (s : Store) (o : ObjectId) (key : String) : Option Point :=
  (s.fields.get? o).bind fun points => points.lookup key

variable {s : Store}

theorem fieldPoint_of_active (hs : s.isActive) (o : ObjectId) (key : String) :
    s.fieldPoint o key = s.notedPoint o key := if_pos hs

theorem notedPoint_setFieldPoint (hs : s.isActive) (o o' : ObjectId) (key key' : String)
    (point : Option Point) : (s.setFieldPoint o key point).notedPoint o' key' =
      if o' = o ∧ key' = key then point else s.notedPoint o' key' := by
  have hupdate (f : List (String × Point) → List (String × Point)) :
      (s.fields.update o [] f).get? o' =
        if o' = o then some (f ((s.fields.get? o).getD [])) else s.fields.get? o' :=
    WeakMap.get?_insert s.fields o o' _
  unfold setFieldPoint notedPoint
  rw [if_pos hs]
  cases point with
  | some p =>
    simp only [hupdate]
    by_cases ho : o' = o
    · subst ho
      cases s.fields.get? o' <;> simp [lookup_putPoint]
    · simp [ho]
  | none =>
    simp only
    cases hfields : s.fields.get? o with
    | none =>
      simp only
      split
      · rename_i h
        rw [h.1, hfields]
        rfl
      · rfl
    | some points =>
      simp only [hupdate]
      by_cases ho : o' = o
      · subst ho
        simp only [if_true, hfields, Option.getD_some, Option.bind_some, true_and]
        exact lookup_dropPoint key key' points
      · simp [ho]

end Store

namespace Heap

theorem lookup_setField (name name' : String) (v : Value) (fields : List (String × Value)) :
    (setField name v fields).lookup name' = if name' = name then some v
      else fields.lookup name' := by
  induction fields with
  | nil => simp [setField, lookup_cons_eq]
  | cons e fields ih =>
    obtain ⟨k, w⟩ := e
    unfold setField
    split <;> grind [lookup_cons_eq]

/-- The fields of an instance that was made. -/
def fieldsOf? (h : Heap) (o : ObjectId) : Option (List (String × Value)) :=
  match h.objects.get? o with
  | some (.instance _ fields) => some fields
  | _ => none

variable {h : Heap} {o : ObjectId}

/-- Making something that is no instance. -/
theorem fieldsOf?_allocate {x : HeapObject} (hx : ∀ c fields, x ≠ .instance c fields)
    {fields : List (String × Value)} (hfields : (h.allocate x).2.fieldsOf? o = some fields) :
    h.fieldsOf? o = some fields := by
  unfold fieldsOf? allocate at hfields
  simp only [Table.get?_add] at hfields
  split at hfields
  · rename_i c fields' hget
    split at hget
    · exact absurd (Option.some.inj hget) (hx c fields')
    · simp only [fieldsOf?, hget, hfields]
  · cases hfields

/-- Changing something that is no instance. -/
theorem fieldsOf?_modify {f : HeapObject → HeapObject} {target : ObjectId}
    (hf : ∀ c fields, f (h.object target) = .instance c fields →
      h.object target = .instance c fields)
    {fields : List (String × Value)} (hfields : (h.modify target f).fieldsOf? o = some fields) :
    h.fieldsOf? o = some fields := by
  unfold fieldsOf? modify at hfields
  simp only [Table.get?_modify] at hfields
  unfold fieldsOf?
  split at hfields
  · rename_i c fields' hget
    split at hget
    · rename_i htarget
      obtain ⟨x, hx, hfx⟩ := Option.map_eq_some_iff.mp hget
      have hobject : h.object target = x := by rw [object, htarget, hx]; rfl
      rw [hx, ← hobject, hf c fields' (by rw [hobject]; exact hfx)]
      exact hfields
    · rw [hget]
      exact hfields
  · cases hfields

/-- Putting a value into a field. -/
theorem fieldsOf?_putField {h' : Heap} {o' : ObjectId} {name : String} {t : Ty} {v : Value}
    (hput : h.putField o name t v = .ok h') {fields' : List (String × Value)}
    (hfields : h'.fieldsOf? o' = some fields') :
    ∃ fields, h.fieldsOf? o' = some fields ∧
      fields' = if o' = o then setField name (v.narrowed t) fields else fields := by
  unfold putField at hput
  split at hput
  · rename_i c fields hobject
    obtain rfl := Except.ok.inj hput
    unfold fieldsOf? modify at hfields
    simp only [Table.get?_modify] at hfields
    unfold fieldsOf?
    by_cases ho : o' = o
    · subst ho
      rw [if_pos rfl] at hfields
      cases hget : h.objects.get? o' with
      | none =>
        rw [hget] at hfields
        cases hfields
      | some x =>
        have hx : x = .instance c fields := by
          rw [← hobject, object, hget]
          rfl
        rw [hget] at hfields
        refine ⟨fields, by rw [hx], ?_⟩
        rw [if_pos rfl]
        exact (Option.some.inj hfields).symm
    · rw [if_neg (Ne.symm ho)] at hfields
      exact ⟨fields', hfields, by rw [if_neg ho]⟩
  · cases hput

/-- The value of a field that was written. -/
theorem getField_of_fieldsOf? {fields : List (String × Value)} {name : String} {v : Value} {t : Ty}
    (hfields : h.fieldsOf? o = some fields) (hv : fields.lookup name = some v) :
    h.getField o name t = .ok v := by
  unfold fieldsOf? at hfields
  split at hfields
  · rename_i c fields' hget
    obtain rfl := Option.some.inj hfields
    unfold getField object
    rw [hget]
    simp only [Option.getD_some, hv]
  · cases hfields

end Heap

/-! ## 2. What spares fields -/

/-- A later world with no other instances and no other fields, and no other points of them. -/
structure World.SparesFields (w w' : World) : Prop where
  points : w'.store.fields = w.store.fields
  heap : ∀ o fields, w'.heap.fieldsOf? o = some fields → w.heap.fieldsOf? o = some fields

namespace World.SparesFields

variable {w w' w'' : World}

theorem refl (w : World) : w.SparesFields w := ⟨rfl, fun _ _ h => h⟩

theorem trans (h : w.SparesFields w') (h' : w'.SparesFields w'') : w.SparesFields w'' :=
  ⟨h'.points.trans h.points, fun o fields hf => h.heap o fields (h'.heap o fields hf)⟩

theorem notedPoint (h : w.SparesFields w') (o : ObjectId) (key : String) :
    w'.store.notedPoint o key = w.store.notedPoint o key := by
  unfold Store.notedPoint
  rw [h.points]

theorem onlyTracks {s : Store} (h : w.store.OnlyTracks s) : w.SparesFields { w with store := s } :=
  ⟨h.fields, fun _ _ h => h⟩

theorem allocate (w : World) {x : HeapObject} (hx : ∀ c fields, x ≠ .instance c fields) :
    w.SparesFields (w.allocate x).2 := ⟨rfl, fun _ _ => Heap.fieldsOf?_allocate hx⟩

theorem putElement (w : World) (o : ObjectId) (i : Nat) (v : Value) :
    w.SparesFields { w with heap := w.heap.putElement o i v } := by
  refine ⟨rfl, fun _ _ => Heap.fieldsOf?_modify fun c fields h => ?_⟩
  cases hx : w.heap.object o with
  | array elem values =>
    rw [hx] at h
    cases h
  | _ =>
    rw [hx] at h
    exact h

theorem copyRange {heap : Heap} {source target : ObjectId} {position targetPosition length : Int32}
    (h : w.heap.copyRange source position target targetPosition length = .ok heap) :
    w.SparesFields { w with heap } := by
  unfold Heap.copyRange at h
  split at h
  · split at h
    · split at h
      · cases h
      · split at h
        · cases h
        · obtain rfl := Except.ok.inj h
          exact ⟨rfl, fun _ _ => Heap.fieldsOf?_modify fun c fields h => by cases h⟩
    · cases h
  · cases h
  · cases h

theorem duplicate_ne {h : Heap} {o : ObjectId} {x : HeapObject}
    (hx : h.duplicate o = .ok x) (c : String) (fields : List (String × Value)) :
    x ≠ .instance c fields := by
  unfold Heap.duplicate at hx
  split at hx
  · rw [← Except.ok.inj hx]
    simp
  · cases hx

end World.SparesFields

/-- What a property of worlds bears if it looks only at fields and their points. -/
theorem World.robust_of_sparesFields {P : World → Prop}
    (hP : ∀ {w w'}, w.SparesFields w' → P w → P w') :
    World.Robust P where
  literals _ := hP ⟨rfl, fun _ _ h => h⟩
  string _ := hP (.allocate _ fun _ _ => by simp)
  records _ _ := hP ⟨rfl, fun _ _ h => h⟩
  tracker _ _ := hP (.onlyTracks (Store.onlyTracks_trackerOf _ _ _))
  source _ _ _ _ _ _ hw _ := hP (.onlyTracks (Store.onlyTracks_setSource _ _ _ _ _ _ _)) hw

/-! ## 3. Instructions and natives -/

namespace Work

variable {w₀ : World} {inUse : Thunk (List Value)}

/-- What an action does to arrays spares fields. -/
theorem allocate_sparesFields {x : HeapObject} (hx : ∀ c fields, x ≠ .instance c fields) :
    Maintains w₀.SparesFields (allocate x) := fun b hb => hb.trans (.allocate b.world hx)

theorem setSource_sparesFields (o : ObjectId) (index length : Nat) (source : Option TrackerId)
    (sourceIndex : Nat) :
    Maintains w₀.SparesFields (setSource inUse o index length source sourceIndex) :=
  maintains_tracking fun _ _ hw => hw.trans (.onlyTracks (Store.onlyTracks_setSource _ _ _ _ _ _ _))

theorem trackerOf_sparesFields (o : ObjectId) : Maintains w₀.SparesFields (trackerOf inUse o) :=
  maintains_tracking fun _ _ hw => hw.trans (.onlyTracks (Store.onlyTracks_trackerOf _ _ _))

theorem storeElement_sparesFields (o : ObjectId) (index : Int32) (v : Value) :
    Maintains w₀.SparesFields (storeElement o index v) :=
  (maintains_fromHeap _).bind fun i _ hb => hb.trans (.putElement _ o i v)

theorem copyRange_sparesFields (source : ObjectId) (position : Int32) (target : ObjectId)
    (targetPosition length : Int32) : Maintains w₀.SparesFields
      (changeHeap fun h => h.copyRange source position target targetPosition length) := by
  intro b hb
  simp only [changeHeap, Action.wp_bind, wp_fromHeap, wp_onHeap]
  split
  · rename_i heap hcopy
    exact hb.trans (.copyRange hcopy)
  · trivial

theorem copyArray_sparesFields :
    ∀ args : List Value, Maintains w₀.SparesFields (copyArray inUse args)
  | [_, _, _, _, _] =>
    (maintains_fromHeap _).bind fun source => (maintains_fromHeap _).bind fun target =>
      (maintains_fromHeap _).bind fun position => (maintains_fromHeap _).bind fun targetPosition =>
      (maintains_fromHeap _).bind fun length =>
      (copyRange_sparesFields source position target targetPosition length).bind fun _ =>
      (trackerOf_sparesFields source).bind fun _ => (setSource_sparesFields _ _ _ _ _).bind fun _ =>
      maintains_pure _
  | [] | [_] | [_, _] | [_, _, _] | [_, _, _, _] | _ :: _ :: _ :: _ :: _ :: _ :: _ =>
    fun _ _ => trivial

theorem cloneArray_sparesFields (v : Value) : Maintains w₀.SparesFields (cloneArray inUse v) := by
  refine (maintains_fromHeap _).bind fun array b hb => ?_
  rw [Action.wp_bind, wp_fromHeap]
  split
  · rename_i x hx
    refine ((allocate_sparesFields (World.SparesFields.duplicate_ne hx)).bind fun copy =>
      (trackerOf_sparesFields array).bind fun tracker? => ?_) b hb
    cases tracker? with
    | none => exact maintains_pure _
    | some tracker =>
      exact (maintains_fromHeap _).bind fun length =>
        (setSource_sparesFields copy 0 length _ _).bind fun _ => maintains_pure _
  · trivial

/-- **Only a write to a field** does not spare fields, and the hook that records its point. -/
theorem perform_sparesFields (method : String) (u : RunError) {i : Insn}
    (hput : ∀ fd, i ≠ .putField fd) (hset : ∀ key, i ≠ .hook (.setFieldPoint key)) :
    Maintains w₀.SparesFields (perform method u inUse i) := by
  have hrobust : World.Robust w₀.SparesFields := World.robust_of_sparesFields fun h hw => hw.trans h
  by_cases hi : i.Spares
  · exact perform_maintains hrobust method u inUse hi
  · cases i with
    | newArray t =>
      refine ((maintains_pop _).bind fun _ => maintains_fromHeap _).bind fun count => ?_
      split
      · exact fun _ _ => trivial
      · exact (allocate_sparesFields fun _ _ => by simp [HeapObject.newArray]).bind fun _ =>
          (maintains_push _).bind fun _ => maintains_pure _
    | arrayStore t =>
      exact (maintains_pop _).bind fun _ =>
        ((maintains_pop _).bind fun _ => maintains_fromHeap _).bind fun _ =>
        ((maintains_pop _).bind fun _ => maintains_fromHeap _).bind fun _ =>
        (storeElement_sparesFields _ _ _).bind fun _ => maintains_pure _
    | putField fd => exact absurd rfl (hput fd)
    | hook h =>
      cases h with
      | setFieldPoint key => exact absurd rfl (hset key)
      | arrayStoreWithPoint t =>
        exact ((maintains_pop _).bind fun _ => (maintains_pop _).bind fun _ =>
          ((maintains_pop _).bind fun _ => maintains_fromHeap _).bind fun _ =>
          ((maintains_pop _).bind fun _ => maintains_fromHeap _).bind fun _ =>
          (storeElement_sparesFields _ _ _).bind fun _ => (maintains_fromHeap _).bind fun _ =>
          (setSource_sparesFields _ _ _ _ _).bind fun _ => maintains_pure _).bind
          fun _ => maintains_pure _
      | arrayCopy =>
        exact ((maintains_popMany _ _).bind fun args => copyArray_sparesFields args).bind fun _ =>
          maintains_pure _
      | arrayClone =>
        exact ((maintains_pop _).bind fun v => (cloneArray_sparesFields v).bind fun _ =>
          maintains_push _).bind fun _ => maintains_pure _
      | _ => exact absurd trivial hi
    | _ => exact absurd trivial hi

end Work

/-- A native that leaves fields and their points alone. -/
def Native.SparesFields (n : Native) : Prop :=
  ∀ call w, Wp (n.body call) (fun _ w' => w.SparesFields w') (fun _ _ => True) w

namespace Native

/-- **The built-in natives** spare fields. -/
theorem builtIn_sparesFields : ∀ e ∈ builtIn, e.2.SparesFields := by
  have hlook {body : NativeBody} (h : body = charAt ∨ body = length ∨ body = equals ∨
      body = toUnsignedInt) : SparesFields ⟨body, []⟩ := by
    intro call w
    rcases h with rfl | rfl | rfl | rfl <;>
      simp only [charAt, length, equals, toUnsignedInt, NativeCall.int, NativeCall.target,
        NativeCall.arg, Action.wp_bind, Action.wp_inspect, Action.wp_pure] <;>
      repeat' split
    all_goals first
      | trivial
      | exact .refl w
  have hcopy : SparesFields ⟨arrayCopy, []⟩ := by
    intro call w
    simp only [arrayCopy, NativeCall.int, NativeCall.target, NativeCall.arg, Action.wp_bind,
      Action.wp_inspect, Action.wp_update, Action.wp_pure]
    repeat' split
    all_goals first
      | trivial
      | exact .copyRange ‹_›
  have hclone : SparesFields ⟨clone, []⟩ := by
    intro call w
    simp only [clone, NativeCall.target, NativeCall.arg, Action.wp_bind, Action.wp_inspect,
      Action.wp_update, Action.wp_pure]
    repeat' split
    all_goals first
      | trivial
      | exact .allocate w (World.SparesFields.duplicate_ne ‹_›)
  simp only [builtIn, List.forall_mem_cons]
  exact ⟨hlook (by simp), hlook (by simp), hlook (by simp), hlook (by simp), hcopy, hclone,
    hclone, hclone, by simp⟩

end Native

end Provenance
