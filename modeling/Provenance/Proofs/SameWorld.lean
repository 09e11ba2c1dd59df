/-
# Worlds that differ in provenance only

Two runs of the same code, one woven and one not, see the same heap and the same literals; what
they know of origins differs.  `World.Same` says so of two worlds, `Action.Matched` of two actions:
from worlds that are the same they come to the same result, or fail in the same kind of way, and
leave worlds that are the same.

Only one thing a program does looks at provenance: a concatenation shows a call record by its
signature.  So the values in play may mention only records that both worlds know
(`Value.Within`); programs make none of their own.
-/
import Provenance.Machine.Run

namespace Provenance

/-! ## 1. Values and heaps -/

/-- A value that mentions no call record but the known ones. -/
def Value.Within (known : Nat → Prop) : Value → Prop
  | .record id => known id
  | _ => True

variable {known : Nat → Prop}

@[simp] theorem Value.within_int (n : Int32) : (Value.int n).Within known := trivial
@[simp] theorem Value.within_null : Value.null.Within known := trivial
@[simp] theorem Value.within_ref (o : ObjectId) : (Value.ref o).Within known := trivial
@[simp] theorem Value.within_point (p : Point) : (Value.point p).Within known := trivial

theorem Value.Within.narrowed {v : Value} (h : v.Within known) (t : Ty) :
    (v.narrowed t).Within known := by
  cases v <;> exact h

theorem Value.within_defaultFor (t : Ty) : (Value.defaultFor t).Within known := by
  cases t <;> trivial

/-- All values an object holds are within. -/
def HeapObject.Within (known : Nat → Prop) (x : HeapObject) : Prop :=
  ∀ v ∈ x.contents, v.Within known

theorem HeapObject.within_ofText (text : String) : (HeapObject.ofText text).Within known := by
  simp [HeapObject.Within, HeapObject.ofText, HeapObject.contents]

theorem HeapObject.within_newArray (t : Ty) (n : Nat) :
    (HeapObject.newArray t n).Within known := by
  intro v hv
  have hv' : v ∈ (Array.replicate n (Value.defaultFor t)).toList := hv
  rw [Array.toList_replicate] at hv'
  rw [(List.mem_replicate.mp hv').2]
  exact Value.within_defaultFor t

/-- All values on a heap are within. -/
def Heap.Within (known : Nat → Prop) (h : Heap) : Prop := ∀ o, (h.object o).Within known

namespace Heap

theorem within_empty (known : Nat → Prop) : empty.Within known := fun o => by
  simp [object, empty, HeapObject.Within, HeapObject.contents]

theorem object_allocate (h : Heap) (x : HeapObject) (o : ObjectId) :
    (h.allocate x).2.object o = if o = h.objects.nextId then x else h.object o := by
  unfold object allocate
  simp only [Table.get?_add]
  split <;> rfl

theorem object_modify (h : Heap) (f : HeapObject → HeapObject) (target o : ObjectId) :
    (h.modify target f).object o = h.object o ∨ (h.modify target f).object o = f (h.object o) := by
  unfold object modify
  simp only [Table.get?_modify]
  split
  · cases h.objects.get? o with
    | none => exact Or.inl rfl
    | some x => exact Or.inr rfl
  · exact Or.inl rfl

theorem Within.allocate {h : Heap} (hh : h.Within known) {x : HeapObject} (hx : x.Within known) :
    (h.allocate x).2.Within known := by
  intro o
  rw [object_allocate]
  split
  · exact hx
  · exact hh o

theorem Within.modify {h : Heap} (hh : h.Within known) {target : ObjectId}
    {f : HeapObject → HeapObject} (hf : ∀ x, x.Within known → (f x).Within known) :
    (h.modify target f).Within known := by
  intro o
  rcases object_modify h f target o with heq | heq <;> rw [heq]
  · exact hh o
  · exact hf _ (hh o)

theorem forall_setIfInBounds {Q : Value → Prop} {values : Array Value} {i : Nat} {v : Value}
    (hvalues : ∀ v ∈ values.toList, Q v) (hv : Q v) :
    ∀ u ∈ (values.setIfInBounds i v).toList, Q u := by
  intro u hu
  rw [Array.toList_setIfInBounds] at hu
  rcases List.mem_or_eq_of_mem_set hu with hu | rfl
  · exact hvalues u hu
  · exact hv

theorem Within.putElement {h : Heap} (hh : h.Within known) {o : ObjectId} {i : Nat} {v : Value}
    (hv : v.Within known) : (h.putElement o i v).Within known := by
  refine hh.modify fun x hx => ?_
  cases x with
  | array elem values => exact forall_setIfInBounds hx (hv.narrowed elem)
  | _ => exact hx

theorem forall_overwrite {Q : Value → Prop} {vs : List Value} (hvs : ∀ v ∈ vs, Q v) :
    ∀ {values : Array Value} {start : Nat}, (∀ v ∈ values.toList, Q v) →
    ∀ v ∈ (overwrite values start vs).toList, Q v := by
  induction vs with
  | nil => exact fun hvalues => hvalues
  | cons v vs ih =>
    intro values start hvalues
    obtain ⟨hv, hvs⟩ := List.forall_mem_cons.mp hvs
    exact ih hvs (forall_setIfInBounds hvalues hv)

/-- What is copied from one array to another was in one of them. -/
theorem forall_copyRange {Q : Value → Prop} {values targetValues : Array Value}
    {start count place : Nat} (hvalues : ∀ v ∈ values.toList, Q v)
    (htargets : ∀ v ∈ targetValues.toList, Q v) :
    ∀ v ∈ (overwrite targetValues place (values.extract start count).toList).toList, Q v := by
  refine forall_overwrite (fun v hv => hvalues v ?_) htargets
  rw [Array.toList_extract] at hv
  exact List.mem_of_mem_drop (List.mem_of_mem_take hv)

theorem Within.copyRange {h h' : Heap} (hh : h.Within known) {source target : ObjectId}
    {position targetPosition length : Int32}
    (hcopy : h.copyRange source position target targetPosition length = .ok h') :
    h'.Within known := by
  unfold Heap.copyRange at hcopy
  split at hcopy
  · rename_i elem values targetElem targetValues hs ht
    have hvalues : ∀ v ∈ values.toList, v.Within known := by
      have := hh source
      rwa [hs] at this
    have htargets : ∀ v ∈ targetValues.toList, v.Within known := by
      have := hh target
      rwa [ht] at this
    split at hcopy
    · split at hcopy
      · exact absurd hcopy (by simp)
      · split at hcopy
        · exact absurd hcopy (by simp)
        · rw [← Except.ok.inj hcopy]
          exact hh.modify fun x _ => forall_copyRange hvalues htargets
    · exact absurd hcopy (by simp)
  · exact absurd hcopy (by simp [wrongKind])
  · exact absurd hcopy (by simp [wrongKind])

theorem within_setField {name : String} {v : Value} (hv : v.Within known) :
    ∀ {fields : List (String × Value)}, (∀ e ∈ fields, e.2.Within known) →
    ∀ e ∈ setField name v fields, e.2.Within known
  | [], _ => by simpa [setField] using hv
  | (k, w) :: rest, h => by
    obtain ⟨hw, hrest⟩ := List.forall_mem_cons.mp h
    unfold setField
    split
    · exact List.forall_mem_cons.mpr ⟨hv, hrest⟩
    · exact List.forall_mem_cons.mpr ⟨hw, within_setField hv hrest⟩

theorem Within.putField {h h' : Heap} (hh : h.Within known) {o : ObjectId} {name : String} {t : Ty}
    {v : Value} (hv : v.Within known) (hput : h.putField o name t v = .ok h') :
    h'.Within known := by
  unfold Heap.putField at hput
  split at hput
  · rename_i className fields ho
    rw [← Except.ok.inj hput]
    refine hh.modify fun x _ => ?_
    have hfields : ∀ e ∈ fields, e.2.Within known := by
      intro e he
      have := hh o
      rw [ho] at this
      exact this e.2 (List.mem_map_of_mem he)
    intro u hu
    obtain ⟨e, he, rfl⟩ := List.mem_map.mp hu
    exact within_setField (hv.narrowed t) hfields e he
  · exact absurd hput (by simp [wrongKind])

theorem Within.load {h : Heap} (hh : h.Within known) {o : ObjectId} {index : Int32} {v : Value}
    (hload : h.load o index = .ok v) : v.Within known := by
  unfold Heap.load at hload
  split at hload
  · rename_i elem values ho
    split at hload
    · exact absurd hload (by simp)
    · rename_i i _
      rw [← Except.ok.inj hload, Array.getD_eq_getD_getElem?]
      cases hi : values[i]? with
      | none => exact trivial
      | some u =>
        have hu : u ∈ values.toList := by
          rw [← Array.getElem?_toList] at hi
          exact List.mem_of_getElem? hi
        have := hh o
        rw [ho] at this
        exact this u hu
  · exact absurd hload (by simp [wrongKind])

theorem mem_of_lookup_eq {name : String} {v : Value} : ∀ {fields : List (String × Value)},
    fields.lookup name = some v → v ∈ fields.map Prod.snd
  | [], h => by simp at h
  | (k, w) :: rest, h => by
    rw [List.lookup_cons] at h
    split at h
    · simp [Option.some.inj h]
    · exact List.mem_cons_of_mem _ (mem_of_lookup_eq h)

theorem Within.getField {h : Heap} (hh : h.Within known) {o : ObjectId} {name : String} {t : Ty}
    {v : Value} (hget : h.getField o name t = .ok v) : v.Within known := by
  unfold Heap.getField at hget
  split at hget
  · rename_i className fields ho
    rw [← Except.ok.inj hget]
    cases hl : fields.lookup name with
    | none => exact Value.within_defaultFor t
    | some u =>
      have := hh o
      rw [ho] at this
      exact this u (mem_of_lookup_eq hl)
  · exact absurd hget (by simp [wrongKind])

theorem Within.duplicate {h : Heap} (hh : h.Within known) {o : ObjectId} {x : HeapObject}
    (hdup : h.duplicate o = .ok x) : x.Within known := by
  unfold Heap.duplicate at hdup
  split at hdup
  · rename_i elem values ho
    rw [← Except.ok.inj hdup]
    have := hh o
    rwa [ho] at this
  · exact absurd hdup (by simp [wrongKind])

/-- A value shows as the same text wherever the records it mentions have the same signature. -/
theorem render_within (h : Heap) {signatureOf signatureOf' : Nat → String}
    (hsame : ∀ id, known id → signatureOf' id = signatureOf id) (t : Ty) {v : Value}
    (hv : v.Within known) : h.render signatureOf' t v = h.render signatureOf t v := by
  cases v with
  | record id => exact hsame id hv
  | _ => rfl

/-- What a computation that may fail gives, it gives through its parts. -/
theorem bind_eq_ok {ε α β : Type} {x : Except ε α} {f : α → Except ε β} {b : β} :
    x >>= f = .ok b ↔ ∃ a, x = .ok a ∧ f a = .ok b := by
  cases x with
  | error e => simp [bind, Except.bind]
  | ok a => simp [bind, Except.bind]

/-- Numbers mention no record. -/
theorem within_binary {h : Heap} {op : BinaryOp} {t : Ty} {a b v : Value}
    (hop : h.binary op t a b = .ok v) : v.Within known := by
  unfold Heap.binary at hop
  split at hop
  · split at hop
    all_goals
      simp only [bind_eq_ok, pure, Except.pure, Except.ok.injEq] at hop
      obtain ⟨_, _, _, _, _, _, rfl⟩ := hop
      trivial
  all_goals
    simp only [bind_eq_ok, pure, Except.pure, Except.ok.injEq] at hop
    obtain ⟨_, _, _, _, _, _, rfl⟩ := hop
    trivial

theorem within_convert {h : Heap} {t : Ty} {a v : Value} (hc : h.convert t a = .ok v) :
    v.Within known := by
  have hmap : ∀ {α : Type} {f : α → Value} {x : Except RunError α},
      f <$> x = .ok v → (∀ n, (f n).Within known) → v.Within known := by
    intro α f x hx hf
    cases x with
    | error e => exact absurd hx (by simp [Functor.map, Except.map])
    | ok n =>
      rw [← Except.ok.inj hx]
      exact hf n
  unfold Heap.convert at hc
  split at hc
  · exact hmap hc fun _ => trivial
  · exact hmap hc fun _ => trivial
  · exact hmap hc fun _ => trivial
  · exact hmap hc fun _ => trivial
  · exact hmap hc fun _ => trivial
  · exact hmap hc fun _ => trivial
  · exact hmap hc fun _ => trivial
  · exact hmap hc fun _ => trivial
  · exact absurd hc (by simp)

end Heap

/-! ## 2. Worlds -/

/-- Two worlds with the same heap and the same literals.  Both know the known records, by the same
signatures. -/
structure World.Same (known : Nat → Prop) (w w' : World) : Prop where
  heap : w'.heap = w.heap
  literals : w'.literals = w.literals
  within : w.heap.Within known
  records : ∀ id, known id → ∃ r r', w.store.record? id = some r ∧ w'.store.record? id = some r' ∧
    r'.signature = r.signature

namespace World.Same

variable {w w' : World}

theorem signatureOf (h : World.Same known w w') {id : Nat} (hid : known id) :
    w'.signatureOf id = w.signatureOf id := by
  obtain ⟨r, r', hr, hr', hsig⟩ := h.records id hid
  unfold World.signatureOf
  rw [hr, hr']
  exact hsig

theorem render (h : World.Same known w w') (t : Ty) {v : Value} (hv : v.Within known) :
    w'.render t v = w.render t v := by
  unfold World.render
  rw [h.heap]
  exact Heap.render_within w.heap (fun _ hid => h.signatureOf hid) t hv

/-- The same change of the heap on both sides. -/
theorem withHeap (h : World.Same known w w') {heap : Heap} (hheap : heap.Within known) :
    World.Same known { w with heap } { w' with heap } :=
  ⟨rfl, h.literals, hheap, h.records⟩

end World.Same

/-! ## 3. Actions that do the same -/

/-- A composed action goes through the outcome of its first part. -/
theorem Action.outcome_bind {σ α β : Type} (x : Action σ α) (f : α → Action σ β) (s : σ) :
    (x >>= f).outcome s =
      match x.outcome s with
      | (.ok a, s) => (f a).outcome s
      | (.error e, s) => (.error e, s) := by
  show ExceptT.bind x f s = _
  unfold outcome ExceptT.bind ExceptT.mk ExceptT.bindCont
  rcases hx : x s with ⟨r, t⟩
  cases r with
  | error e =>
    simp only [Bind.bind, StateT.bind, hx]
    rfl
  | ok a => simp only [Bind.bind, StateT.bind, hx]

/-- The same outcome in states that are related, or a failure of the same kind. -/
inductive Agreed {σ α : Type} (S : σ → σ → Prop) (P : α → Prop) :
    Except RunError α × σ → Except RunError α × σ → Prop where
  | ok {a : α} {s s' : σ} (ha : P a) (hs : S s s') : Agreed S P (.ok a, s) (.ok a, s')
  | failed {e e' : RunError} {s s' : σ} (he : e'.kind = e.kind) (hs : S s s') :
      Agreed S P (.error e, s) (.error e', s')

/-- Two actions that agree from related states. -/
def Action.Matched {σ α : Type} (S : σ → σ → Prop) (P : α → Prop) (x x' : Action σ α) : Prop :=
  ∀ s s', S s s' → Agreed S P (x.outcome s) (x'.outcome s')

namespace Action.Matched

variable {σ α β : Type} {S : σ → σ → Prop} {P : α → Prop} {Q : β → Prop}

theorem pure {a : α} (ha : P a) : Matched S P (Pure.pure a) (Pure.pure a) :=
  fun _ _ hs => .ok ha hs

theorem throw {e e' : RunError} (he : e'.kind = e.kind) :
    Matched S P (MonadExcept.throw e) (MonadExcept.throw e') :=
  fun _ _ hs => .failed he hs

theorem bind {x x' : Action σ α} {f f' : α → Action σ β} (hx : Matched S P x x')
    (hf : ∀ a, P a → Matched S Q (f a) (f' a)) : Matched S Q (x >>= f) (x' >>= f') := by
  intro s s' hs
  rw [outcome_bind, outcome_bind]
  have h := hx s s' hs
  generalize x.outcome s = r at h ⊢
  generalize x'.outcome s' = r' at h ⊢
  cases h with
  | ok ha hs => exact hf _ ha _ _ hs
  | failed he hs => exact .failed he hs

theorem inspect {f f' : σ → Except RunError α}
    (hf : ∀ s s', S s s' → Agreed (fun _ _ => True) P (f s, ()) (f' s', ())) :
    Matched S P (Action.inspect f) (Action.inspect f') := by
  intro s s' hs
  have h := hf s s' hs
  show Agreed S P (f s, s) (f' s', s')
  generalize f s = r at h
  generalize f' s' = r' at h
  cases h with
  | ok ha _ => exact .ok ha hs
  | failed he _ => exact .failed he hs

theorem update {f f' : σ → α × σ}
    (hf : ∀ s s', S s s' → (f' s').1 = (f s).1 ∧ P (f s).1 ∧ S (f s).2 (f' s').2) :
    Matched S P (Action.update f) (Action.update f') := by
  intro s s' hs
  obtain ⟨heq, hP, hS⟩ := hf s s' hs
  show Agreed S P (.ok (f s).1, (f s).2) (.ok (f' s').1, (f' s').2)
  rw [heq]
  exact .ok hP hS

end Action.Matched

end Provenance
