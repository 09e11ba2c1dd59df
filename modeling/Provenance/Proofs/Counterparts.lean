/-
# An instruction does the same under other names

Worlds are counterparts if their heaps hold the same under a renaming and so do their literals
(`World.Renamed`).  Two actions are parallel if from states that are counterparts they come to
results that are, or fail in the same kind of way, under a renaming that may know more objects
(`Action.Parallel`).

All instructions of a program are parallel to themselves (`Work.perform_parallel`), with two
exceptions: a comparison of references may tell two copies of a string apart, and a concatenation
shows the number of an object.  The built-in natives are parallel to themselves, too
(`Native.builtIn_impartial`).
-/
import Provenance.Proofs.Copying
import Provenance.Proofs.Renaming

namespace Provenance

variable {R R' R₁ : Renaming}

/-! ## 1. Worlds -/

/-- Worlds that hold the same under a renaming, and know the same of origins. -/
structure World.Renamed (R : Renaming) (w w' : World) : Prop where
  heap : w.heap.Renamed R w'.heap
  literals : ∀ text, Option.Rel (fun o o' => R.rel o o' ∧ (R.text o).isSome)
    (w.literals.lookup text) (w'.literals.lookup text)
  store : w'.store = w.store

namespace World.Renamed

variable {w w' : World}

/-- Another heap under a renaming that knows more. -/
theorem withHeap (h : w.Renamed R w') (hR : R.Grows R') {heap heap' : Heap}
    (hheap : heap.Renamed R' heap') :
    World.Renamed R' { w with heap } { w' with heap := heap' } := by
  refine ⟨hheap, fun text => ?_, h.store⟩
  have hrel := h.literals text
  generalize w.literals.lookup text = u at hrel ⊢
  generalize w'.literals.lookup text = u' at hrel ⊢
  cases hrel with
  | none => exact .none
  | some ho => exact .some ⟨hR.rel ho.1, hR.text ho.1 ▸ ho.2⟩

/-- **A literal** stands for counterparts. -/
theorem literal (h : w.Renamed R w') (text : String) : ∃ R', R.Grows R' ∧
    R'.rel (w.literal text).1 (w'.literal text).1 ∧
      World.Renamed R' (w.literal text).2 (w'.literal text).2 := by
  have hrel := h.literals text
  unfold World.literal
  cases hlookup : w.literals.lookup text with
  | some o =>
    cases hlookup' : w'.literals.lookup text with
    | some o' =>
      rw [hlookup, hlookup'] at hrel
      cases hrel with
      | some ho => exact ⟨R, .refl R, ho.1, h⟩
    | none =>
      rw [hlookup, hlookup'] at hrel
      cases hrel
  | none =>
    cases hlookup' : w'.literals.lookup text with
    | some o' =>
      rw [hlookup, hlookup'] at hrel
      cases hrel
    | none =>
      obtain ⟨R', hR, ho, hheap⟩ := h.heap.allocate (HeapObject.Renamed.string text.toList.toArray)
      have hw := h.withHeap hR hheap
      refine ⟨R', hR, ho, hw.heap, fun text' => ?_, hw.store⟩
      show Option.Rel _ (((text, _) :: w.literals).lookup text')
        (((text, _) :: w'.literals).lookup text')
      rw [List.lookup_cons, List.lookup_cons]
      cases text' == text with
      | true =>
        refine .some ⟨ho, ?_⟩
        show (R'.text (w.heap.allocate (.string text.toList.toArray)).1).isSome = true
        rw [hheap.text ho, Heap.object_allocate]
        exact congrArg (Option.isSome ∘ HeapObject.chars?) (if_pos rfl)
      | false => exact hw.literals text'

end World.Renamed

/-! ## 2. Actions -/

/-- Two actions that, from states that are counterparts, come to results that are, or fail in the
same kind of way, and leave states that are counterparts, too. -/
def Action.Parallel {σ α : Type} (S : Renaming → σ → σ → Prop) (R : Renaming)
    (P : Renaming → α → α → Prop) (x x' : Action σ α) : Prop :=
  ∀ R₁, R.Grows R₁ → ∀ s s', S R₁ s s' → ∃ R₂, R₁.Grows R₂ ∧
    S R₂ (x.outcome s).2 (x'.outcome s').2 ∧ Both (P R₂) (x.outcome s).1 (x'.outcome s').1

namespace Action.Parallel

variable {σ α β : Type} {S : Renaming → σ → σ → Prop} {P : Renaming → α → α → Prop}
  {Q : Renaming → β → β → Prop}

theorem pure {a a' : α} (ha : ∀ R₁, R.Grows R₁ → P R₁ a a') :
    Parallel S R P (Pure.pure a) (Pure.pure a') :=
  fun R₁ hR _ _ hs => ⟨R₁, .refl R₁, hs, .ok (ha R₁ hR)⟩

theorem throw {e e' : RunError} (he : e'.kind = e.kind) :
    Parallel S R P (MonadExcept.throw e) (MonadExcept.throw e') :=
  fun R₁ _ _ _ hs => ⟨R₁, .refl R₁, hs, .failed he⟩

theorem bind {x x' : Action σ α} {f f' : α → Action σ β} (hx : Parallel S R P x x')
    (hf : ∀ R₁, R.Grows R₁ → ∀ a a', P R₁ a a' → Parallel S R₁ Q (f a) (f' a')) :
    Parallel S R Q (x >>= f) (x' >>= f') := by
  intro R₁ hR s s' hs
  obtain ⟨R₂, hR₂, hs₂, hboth⟩ := hx R₁ hR s s' hs
  rw [outcome_bind, outcome_bind]
  generalize x.outcome s = r at hs₂ hboth ⊢
  generalize x'.outcome s' = r' at hs₂ hboth ⊢
  obtain ⟨r, t⟩ := r
  obtain ⟨r', t'⟩ := r'
  cases hboth with
  | @ok a a' ha =>
    obtain ⟨R₃, hR₃, hs₃, hboth⟩ := hf R₂ (hR.trans hR₂) a a' ha R₂ (.refl R₂) t t' hs₂
    exact ⟨R₃, hR₂.trans hR₃, hs₃, hboth⟩
  | failed he => exact ⟨R₂, hR₂, hs₂, .failed he⟩

theorem inspect {f f' : σ → Except RunError α}
    (hf : ∀ R₁, R.Grows R₁ → ∀ s s', S R₁ s s' → Both (P R₁) (f s) (f' s')) :
    Parallel S R P (Action.inspect f) (Action.inspect f') :=
  fun R₁ hR s s' hs => ⟨R₁, .refl R₁, hs, hf R₁ hR s s' hs⟩

theorem update {f f' : σ → α × σ}
    (hf : ∀ R₁, R.Grows R₁ → ∀ s s', S R₁ s s' → ∃ R₂, R₁.Grows R₂ ∧ S R₂ (f s).2 (f' s').2 ∧
      P R₂ (f s).1 (f' s').1) :
    Parallel S R P (Action.update f) (Action.update f') := by
  intro R₁ hR s s' hs
  obtain ⟨R₂, hR₂, hs₂, hP⟩ := hf R₁ hR s s' hs
  exact ⟨R₂, hR₂, hs₂, .ok hP⟩

end Action.Parallel

/-! ## 3. Benches -/

theorem Value.Renamed.growAll {vs vs' : List Value} (h : List.Forall₂ (Value.Renamed R) vs vs')
    (hR : R.Grows R') : List.Forall₂ (Value.Renamed R') vs vs' :=
  h.imp fun _ _ hv => hv.grow hR

/-- Benches that are the same under a renaming. -/
structure Bench.Renamed (R : Renaming) (b b' : Bench) : Prop where
  world : World.Renamed R b.world b'.world
  locals : List.Forall₂ (Value.Renamed R) b.locals.toList b'.locals.toList
  stack : List.Forall₂ (Value.Renamed R) b.stack b'.stack

/-- Another world under a renaming that knows more. -/
theorem Bench.Renamed.withWorld {b b' : Bench} (h : b.Renamed R b') (hR : R.Grows R') {w w' : World}
    (hw : w.Renamed R' w') : Bench.Renamed R' { b with world := w } { b' with world := w' } :=
  ⟨hw, Value.Renamed.growAll h.locals hR, Value.Renamed.growAll h.stack hR⟩

/-- Where an instruction goes on, under a renaming. -/
inductive Transfer.Renamed (R : Renaming) : Transfer → Transfer → Prop where
  | next : Renamed R .next .next
  | jump (l : Nat) : Renamed R (.jump l) (.jump l)
  | call (m : MethodRef) {args args' : List Value} (h : List.Forall₂ (Value.Renamed R) args args') :
      Renamed R (.call m args) (.call m args')
  | ret {v v' : Option Value} (h : Option.Rel (Value.Renamed R) v v') : Renamed R (.ret v) (.ret v')

namespace Work

open Provenance.Action.Parallel

/-- Two pieces of work that are parallel. -/
abbrev Parallel {α : Type} (R : Renaming) (P : Renaming → α → α → Prop) (x x' : Work α) : Prop :=
  Action.Parallel Bench.Renamed R P x x'

/-- The results are equal. -/
abbrev Same {α : Type} (_ : Renaming) (a a' : α) : Prop := a = a'

/-- The results are objects that are counterparts. -/
abbrev Objects (R : Renaming) (o o' : ObjectId) : Prop := R.rel o o'

variable {v v' : Value} {u : RunError} {o o' : ObjectId}

theorem push_parallel (hv : Value.Renamed R v v') : Parallel R Same (push v) (push v') :=
  update fun R₁ hR _ _ hb => ⟨R₁, .refl R₁, ⟨hb.world, hb.locals, .cons (hv.grow hR) hb.stack⟩, rfl⟩

theorem pop_parallel (R : Renaming) (u : RunError) : Parallel R Value.Renamed (pop u) (pop u) := by
  rintro R₁ - ⟨w, L, S⟩ ⟨w', L', S'⟩ ⟨hw, hL, hS⟩
  simp only at hw hL hS
  cases hS with
  | nil => exact ⟨R₁, .refl R₁, ⟨hw, hL, .nil⟩, .failed rfl⟩
  | cons hv hS => exact ⟨R₁, .refl R₁, ⟨hw, hL, hS⟩, .ok hv⟩

theorem popMany_parallel (R : Renaming) (u : RunError) (count : Nat) :
    Parallel R (fun R => List.Forall₂ (Value.Renamed R)) (popMany u count) (popMany u count) := by
  rintro R₁ - ⟨w, L, S⟩ ⟨w', L', S'⟩ ⟨hw, hL, hS⟩
  simp only at hw hL hS
  unfold Action.outcome popMany
  simp only [hS.length_eq]
  split
  · exact ⟨R₁, .refl R₁, ⟨hw, hL, hS⟩, .failed rfl⟩
  · refine ⟨R₁, .refl R₁, ⟨hw, hL, List.forall₂_drop _ hS⟩, .ok ?_⟩
    exact List.forall₂_reverse_iff.mpr (List.forall₂_take _ hS)

theorem fromHeap_parallel {α : Type} {P : Renaming → α → α → Prop} {f f' : Heap → Except RunError α}
    (hf : ∀ R₁, R.Grows R₁ → ∀ h h' : Heap, h.Renamed R₁ h' → Both (P R₁) (f h) (f' h')) :
    Parallel R P (fromHeap f) (fromHeap f') :=
  inspect fun R₁ hR _ _ hb => hf R₁ hR _ _ hb.world.heap

theorem onHeap_parallel {α : Type} {P : Renaming → α → α → Prop} {f f' : Heap → α × Heap}
    (hf : ∀ R₁, R.Grows R₁ → ∀ h h' : Heap, h.Renamed R₁ h' → ∃ R₂, R₁.Grows R₂ ∧
      P R₂ (f h).1 (f' h').1 ∧ (f h).2.Renamed R₂ (f' h').2) :
    Parallel R P (onHeap f) (onHeap f') := by
  refine update fun R₁ hR _ _ hb => ?_
  obtain ⟨R₂, hR₂, hP, hheap⟩ := hf R₁ hR _ _ hb.world.heap
  exact ⟨R₂, hR₂, hb.withWorld hR₂ (hb.world.withHeap hR₂ hheap), hP⟩

theorem popInt_parallel (R : Renaming) (u : RunError) : Parallel R Same (popInt u) (popInt u) :=
  bind (pop_parallel R u) fun _ _ _ _ hv => fromHeap_parallel fun _ hR h h' _ =>
    Heap.Renamed.int h h' (hv.grow hR)

theorem popTarget_parallel (R : Renaming) (u : RunError) (context : String) :
    Parallel R Objects (popTarget u context) (popTarget u context) :=
  bind (pop_parallel R u) fun _ _ _ _ hv => fromHeap_parallel fun _ hR h h' _ =>
    Heap.Renamed.target h h' context context (hv.grow hR)

theorem allocate_parallel {x x' : HeapObject} (hx : HeapObject.Renamed R x x') :
    Parallel R Objects (allocate x) (allocate x') :=
  onHeap_parallel fun _ hR _ _ hh => hh.allocate (hx.grow hR)

theorem storeElement_parallel (ho : R.rel o o') (index : Int32) (hv : Value.Renamed R v v') :
    Parallel R Same (storeElement o index v) (storeElement o' index v') := by
  refine bind (P := Same)
    (fromHeap_parallel fun _ hR _ _ hh => hh.elementPlace (hR.rel ho) index) ?_
  rintro R₁ hR i _ rfl
  exact onHeap_parallel fun R₂ hR₂ _ _ hh =>
    ⟨R₂, .refl R₂, rfl, hh.putElement (hR₂.rel (hR.rel ho)) i (hv.grow (hR.trans hR₂))⟩

theorem changeHeap_parallel {f f' : Heap → Except RunError Heap}
    (hf : ∀ R₁, R.Grows R₁ → ∀ h h' : Heap, h.Renamed R₁ h' →
      Both (Heap.Renamed R₁) (f h) (f' h')) :
    Parallel R Same (changeHeap f) (changeHeap f') := by
  -- the heap that was read is changed at once, under the same renaming
  intro R₁ hR b b' hb
  have hboth := hf R₁ hR _ _ hb.world.heap
  refine ⟨R₁, .refl R₁, ?_⟩
  unfold changeHeap
  rw [Action.outcome_bind, Action.outcome_bind,
    show (fromHeap f).outcome b = (f b.world.heap, b) from rfl,
    show (fromHeap f').outcome b' = (f' b'.world.heap, b') from rfl]
  generalize f b.world.heap = r at hboth ⊢
  generalize f' b'.world.heap = r' at hboth ⊢
  cases hboth with
  | ok hheap => exact ⟨hb.withWorld (.refl R₁) (hb.world.withHeap (.refl R₁) hheap), .ok rfl⟩
  | failed he => exact ⟨hb, .failed he⟩

theorem constant_parallel (R : Renaming) (c : Constant) :
    Parallel R Value.Renamed (constant c) (constant c) := by
  cases c with
  | str text =>
    refine bind (P := Objects) (update fun R₁ _ b b' hb => ?_) fun _ _ _ _ ho =>
      pure fun _ hR => .ref (hR.rel ho)
    obtain ⟨R₂, hR, ho, hw⟩ := hb.world.literal text
    exact ⟨R₂, hR, hb.withWorld hR hw, ho⟩
  | _ => exact pure fun _ _ => .same rfl

theorem loadLocal_parallel (R : Renaming) (method : String) (l : Nat) :
    Parallel R Value.Renamed (loadLocal method l) (loadLocal method l) := by
  refine inspect fun R₁ _ b b' hb => ?_
  have hrel := rel_getElem? hb.locals l
  rw [Array.getElem?_toList, Array.getElem?_toList] at hrel
  generalize b.locals[l]? = x at hrel ⊢
  generalize b'.locals[l]? = x' at hrel ⊢
  cases hrel with
  | none => exact .failed rfl
  | some hv => exact .ok hv

theorem storeLocal_parallel (method : String) (l : Nat) (hv : Value.Renamed R v v') :
    Parallel R Same (storeLocal method l v) (storeLocal method l v') := by
  refine bind (P := Same) (inspect fun R₁ _ b b' hb => ?_) fun R₁ hR _ _ _ =>
    update fun R₂ hR₂ b b' hb => ?_
  · rw [size_eq_of_forall₂ hb.locals]
    exact .refl (fun _ => rfl) _
  · refine ⟨R₂, .refl R₂, ⟨hb.world, ?_, hb.stack⟩, rfl⟩
    simp only [Array.toList_setIfInBounds]
    exact forall₂_set hb.locals l (hv.grow (hR.trans hR₂))

/-! ## 4. One instruction -/

/-- **An instruction does the same** under other names, unless it compares references or shows
objects. -/
theorem perform_parallel (R : Renaming) (method : String) (u : RunError)
    (inUse inUse' : Thunk (List Value)) {i : Insn} (hhook : ∀ h, i ≠ .hook h)
    (hcompares : i.comparison? = none) (hconcat : ∀ args, i ≠ .concat args) :
    Parallel R Transfer.Renamed (perform method u inUse i) (perform method u inUse' i) := by
  have hnext {R : Renaming} {x x' : Work Unit} (hx : Parallel R Same x x') :
      Parallel R Transfer.Renamed (do x; return .next) (do x'; return .next) :=
    bind hx fun _ _ _ _ _ => pure fun _ _ => .next
  have hjump {R : Renaming} (b : Bool) (l : Nat) :
      Parallel R Transfer.Renamed (Pure.pure (jumpIf b l)) (Pure.pure (jumpIf b l)) :=
    pure fun _ _ => by
      cases b
      · exact .next
      · exact .jump l
  have hpop := pop_parallel
  cases i with
  | nop => exact pure fun _ _ => .next
  | label l => exact pure fun _ _ => .next
  | goto l => exact pure fun _ _ => .jump l
  | const c => exact bind (constant_parallel R c) fun _ _ _ _ hv => hnext (push_parallel hv)
  | load l => exact bind (loadLocal_parallel R method l) fun _ _ _ _ hv => hnext (push_parallel hv)
  | store l => exact bind (hpop R u) fun _ _ _ _ hv => hnext (storeLocal_parallel method l hv)
  | dup =>
    refine bind (hpop R u) fun _ _ _ _ hv => ?_
    exact bind (push_parallel hv) fun _ hR _ _ _ => hnext (push_parallel (hv.grow hR))
  | dupX1 =>
    refine bind (hpop R u) fun R₁ _ _ _ hb => bind (hpop R₁ u) fun _ hR _ _ ha => ?_
    have hb := hb.grow hR
    refine bind (push_parallel hb) fun _ hR _ _ _ =>
      bind (push_parallel (ha.grow hR)) fun _ hR₂ _ _ _ => ?_
    exact hnext (push_parallel (hb.grow (hR.trans hR₂)))
  | dup2 =>
    refine bind (hpop R u) fun R₁ _ _ _ hb => bind (hpop R₁ u) fun _ hR _ _ ha => ?_
    have hb := hb.grow hR
    refine bind (push_parallel ha) fun _ hR _ _ _ =>
      bind (push_parallel (hb.grow hR)) fun _ hR₂ _ _ _ => ?_
    refine bind (push_parallel (ha.grow (hR.trans hR₂))) fun _ hR₃ _ _ _ => ?_
    exact hnext (push_parallel (hb.grow ((hR.trans hR₂).trans hR₃)))
  | pop => exact bind (hpop R u) fun _ _ _ _ _ => pure fun _ _ => .next
  | swap =>
    refine bind (hpop R u) fun R₁ _ _ _ hb => bind (hpop R₁ u) fun _ hR _ _ ha => ?_
    refine bind (push_parallel (hb.grow hR)) fun _ hR _ _ _ => ?_
    exact hnext (push_parallel (ha.grow hR))
  | arrayLoad t =>
    refine bind (popInt_parallel R u) ?_
    rintro R₁ - index _ rfl
    refine bind (popTarget_parallel R₁ u _) fun _ _ _ _ ho => ?_
    refine bind (fromHeap_parallel fun _ hR _ _ hh => hh.load (hR.rel ho) index)
      fun _ _ _ _ hv => ?_
    exact hnext (push_parallel hv)
  | arrayStore t =>
    refine bind (hpop R u) fun R₁ _ _ _ hv => bind (popInt_parallel R₁ u) ?_
    rintro R₂ hR index _ rfl
    refine bind (popTarget_parallel R₂ u _) fun _ hR₂ _ _ ho => ?_
    exact hnext (storeElement_parallel ho index (hv.grow (hR.trans hR₂)))
  | arrayLength =>
    refine bind (popTarget_parallel R u _) fun R₁ _ _ _ ho => ?_
    refine bind (P := Same) (fromHeap_parallel fun _ hR _ _ hh => hh.length (hR.rel ho)) ?_
    rintro _ - n _ rfl
    exact hnext (push_parallel (.same rfl))
  | newArray t =>
    refine bind (popInt_parallel R u) ?_
    rintro R₁ - count _ rfl
    split
    · exact throw rfl
    · exact bind (allocate_parallel (HeapObject.renamed_newArray _ t _)) fun _ _ _ _ ho =>
        hnext (push_parallel (.ref ho))
  | getField fd =>
    refine bind (popTarget_parallel R u _) fun R₁ _ _ _ ho => ?_
    refine bind (fromHeap_parallel fun _ hR _ _ hh => hh.getField (hR.rel ho) _ _)
      fun _ _ _ _ hv => ?_
    exact hnext (push_parallel hv)
  | putField fd =>
    refine bind (hpop R u) fun R₁ _ _ _ hv => bind (popTarget_parallel R₁ u _) fun _ hR _ _ ho => ?_
    exact hnext (changeHeap_parallel fun _ hR₂ _ _ hh =>
      hh.putField (hR₂.rel ho) _ _ (hv.grow (hR.trans hR₂)))
  | binary op t =>
    refine bind (hpop R u) fun R₁ _ _ _ hb => bind (hpop R₁ u) fun _ hR _ _ ha => ?_
    refine bind (fromHeap_parallel fun _ hR₂ h h' _ =>
      Heap.Renamed.binary h h' op t (ha.grow hR₂) (hb.grow (hR.trans hR₂))) fun _ _ _ _ hv => ?_
    exact hnext (push_parallel hv)
  | convert source target =>
    refine bind (hpop R u) fun R₁ _ _ _ hv => ?_
    refine bind (fromHeap_parallel fun _ hR h h' _ =>
      Heap.Renamed.convert h h' target (hv.grow hR)) fun _ _ _ _ hv => ?_
    exact hnext (push_parallel hv)
  | invoke m =>
    exact bind (popMany_parallel R u _) fun _ _ _ _ hargs =>
      pure fun _ hR => .call m (Value.Renamed.growAll hargs hR)
  | concat args => exact absurd rfl (hconcat args)
  | ifZero cond l =>
    refine bind (popInt_parallel R u) ?_
    rintro _ - n _ rfl
    exact hjump _ l
  | ifCmp cond l =>
    refine bind (popInt_parallel R u) ?_
    rintro R₁ - n _ rfl
    refine bind (popInt_parallel R₁ u) ?_
    rintro _ - n' _ rfl
    exact hjump _ l
  | ifNull l | ifNonNull l =>
    refine bind (hpop R u) fun R₁ _ _ _ hv => ?_
    refine bind (fromHeap_parallel fun _ hR h h' _ => Heap.Renamed.reference h h' (hv.grow hR)) ?_
    rintro _ - o o' ho
    cases ho <;> exact hjump _ l
  | ifRefEq l | ifRefNe l => cases hcompares
  | ret t =>
    by_cases ht : t = .void
    · simp only [perform, ht, if_true]
      exact pure fun _ _ => .ret .none
    · simp only [perform, ht, if_false]
      exact bind (hpop R u) fun _ _ _ _ hv => pure fun _ hR => .ret (.some (hv.grow hR))
  | hook h => exact absurd rfl (hhook h)

end Work

/-! ## 5. Natives that do not tell copies apart -/

/-- What a native gives and does is the same under other names, as long as the values that it holds
on to keep theirs. -/
def Native.Impartial (native : Native) : Prop :=
  ∀ (R : Renaming), (∀ v ∈ native.held, Value.Renamed R v v) →
    ∀ (key : String) (record : Option Nat) (args args' : List Value),
    List.Forall₂ (Value.Renamed R) args args' →
    Action.Parallel World.Renamed R (fun R => Option.Rel (Value.Renamed R))
      (native.body ⟨key, args, record⟩) (native.body ⟨key, args', record⟩)

namespace Native

open Provenance.Action.Parallel

variable {key : String} {record : Option Nat} {args args' : List Value}

theorem arg_parallel (hargs : List.Forall₂ (Value.Renamed R) args args') (index : Nat) :
    Action.Parallel World.Renamed R Value.Renamed (NativeCall.arg ⟨key, args, record⟩ index)
      (NativeCall.arg ⟨key, args', record⟩ index) := by
  refine inspect fun R₁ hR w w' _ => ?_
  have hrel := rel_getElem? hargs index
  simp only
  generalize args[index]? = v at hrel ⊢
  generalize args'[index]? = v' at hrel ⊢
  cases hrel with
  | none => exact .failed rfl
  | some hv => exact .ok (hv.grow hR)

/-- Reading the heap. -/
theorem look_parallel {α : Type} {P : Renaming → α → α → Prop} {f f' : Heap → Except RunError α}
    (hf : ∀ R₁, R.Grows R₁ → ∀ h h' : Heap, h.Renamed R₁ h' → Both (P R₁) (f h) (f' h')) :
    Action.Parallel World.Renamed R P (Action.inspect fun w => f w.heap)
      (Action.inspect fun w => f' w.heap) :=
  inspect fun R₁ hR _ _ hw => hf R₁ hR _ _ hw.heap

theorem target_parallel (hargs : List.Forall₂ (Value.Renamed R) args args') (index : Nat) :
    Action.Parallel World.Renamed R Work.Objects (NativeCall.target ⟨key, args, record⟩ index)
      (NativeCall.target ⟨key, args', record⟩ index) :=
  bind (arg_parallel hargs index) fun _ _ _ _ hv => look_parallel fun _ hR h h' _ =>
    Heap.Renamed.target h h' key key (hv.grow hR)

theorem int_parallel (hargs : List.Forall₂ (Value.Renamed R) args args') (index : Nat) :
    Action.Parallel World.Renamed R Work.Same (NativeCall.int ⟨key, args, record⟩ index)
      (NativeCall.int ⟨key, args', record⟩ index) :=
  bind (arg_parallel hargs index) fun _ _ _ _ hv => look_parallel fun _ hR h h' _ =>
    Heap.Renamed.int h h' (hv.grow hR)

/-- Changing the heap. -/
theorem change_parallel {f f' : Heap → Except RunError Heap}
    (hf : ∀ R₁, R.Grows R₁ → ∀ h h' : Heap, h.Renamed R₁ h' →
      Both (Heap.Renamed R₁) (f h) (f' h')) :
    Action.Parallel World.Renamed R (fun R => Option.Rel (Value.Renamed R))
      (do
        let heap ← Action.inspect fun w => f w.heap
        Action.update fun w => ((), { w with heap })
        return none)
      (do
        let heap ← Action.inspect fun w => f' w.heap
        Action.update fun w => ((), { w with heap })
        return none) := by
  intro R₁ hR w w' hw
  have hboth := hf R₁ hR _ _ hw.heap
  refine ⟨R₁, .refl R₁, ?_⟩
  rw [Action.outcome_bind, Action.outcome_bind,
    show (Action.inspect fun w => f w.heap).outcome w = (f w.heap, w) from rfl,
    show (Action.inspect fun w => f' w.heap).outcome w' = (f' w'.heap, w') from rfl]
  generalize f w.heap = r at hboth ⊢
  generalize f' w'.heap = r' at hboth ⊢
  cases hboth with
  | ok hheap => exact ⟨hw.withHeap (.refl R₁) hheap, .ok .none⟩
  | failed he => exact ⟨hw, .failed he⟩

/-- A result that is no object. -/
theorem number_parallel {v : Value} (hv : v.object? = none) :
    Action.Parallel World.Renamed R (fun R => Option.Rel (Value.Renamed R)) (Pure.pure (some v))
      (Pure.pure (some v)) :=
  pure fun _ _ => .some (.same hv)

theorem charAt_impartial (held : List Value) : Impartial ⟨charAt, held⟩ := by
  intro R _ key record args args' hargs
  refine bind (int_parallel hargs 1) ?_
  rintro R₁ hR index _ rfl
  refine bind (target_parallel (Value.Renamed.growAll hargs hR) 0) fun R₂ _ o o' ho => ?_
  refine bind (P := Work.Same) (look_parallel fun _ hR _ _ hh => hh.charAt (hR.rel ho) index) ?_
  rintro _ - char _ rfl
  exact number_parallel rfl

theorem length_impartial (held : List Value) : Impartial ⟨length, held⟩ := by
  intro R _ key record args args' hargs
  refine bind (target_parallel hargs 0) fun R₁ _ o o' ho => ?_
  refine bind (P := Work.Same) (look_parallel fun _ hR _ _ hh => hh.length (hR.rel ho)) ?_
  rintro _ - n _ rfl
  exact number_parallel rfl

theorem equals_impartial (held : List Value) : Impartial ⟨equals, held⟩ := by
  intro R _ key record args args' hargs
  refine bind (arg_parallel hargs 0) fun R₁ hR a a' ha => ?_
  refine bind (arg_parallel (Value.Renamed.growAll hargs hR) 1) fun R₂ hR₂ b b' hb => ?_
  refine bind (P := Work.Same) (look_parallel fun _ hR₃ _ _ hh =>
    hh.stringEquals (ha.grow (hR₂.trans hR₃)) (hb.grow hR₃)) ?_
  rintro _ - same _ rfl
  exact number_parallel rfl

theorem toUnsignedInt_impartial (held : List Value) : Impartial ⟨toUnsignedInt, held⟩ := by
  intro R _ key record args args' hargs
  refine bind (int_parallel hargs 0) ?_
  rintro _ - n _ rfl
  exact number_parallel rfl

theorem arrayCopy_impartial (held : List Value) : Impartial ⟨arrayCopy, held⟩ := by
  intro R _ key record args args' hargs
  refine bind (target_parallel hargs 0) fun R₁ hR₁ source source' hsource => ?_
  have hargs := Value.Renamed.growAll hargs hR₁
  refine bind (target_parallel hargs 2) fun R₂ hR₂ target target' htarget => ?_
  have hargs := Value.Renamed.growAll hargs hR₂
  refine bind (int_parallel hargs 1) ?_
  rintro R₃ hR₃ position _ rfl
  have hargs := Value.Renamed.growAll hargs hR₃
  refine bind (int_parallel hargs 3) ?_
  rintro R₄ hR₄ start _ rfl
  refine bind (int_parallel (Value.Renamed.growAll hargs hR₄) 4) ?_
  rintro R₅ hR₅ length _ rfl
  have hR := (hR₃.trans hR₄).trans hR₅
  exact change_parallel fun _ hR₆ _ _ hh =>
    hh.copyRange ((hR₂.trans (hR.trans hR₆)).rel hsource) ((hR.trans hR₆).rel htarget) _ _ _

theorem clone_impartial (held : List Value) : Impartial ⟨clone, held⟩ := by
  intro R _ key record args args' hargs
  refine bind (target_parallel hargs 0) fun R₁ _ o o' ho => ?_
  refine bind (look_parallel fun _ hR _ _ hh => hh.duplicate (hR.rel ho)) fun R₂ _ x x' hx => ?_
  refine bind (P := Work.Objects) (update fun R₃ hR w w' hw => ?_) fun R₃ _ _ _ ho =>
    pure fun _ hR => .some (.ref (hR.rel ho))
  obtain ⟨R₄, hR₄, ho, hheap⟩ := hw.heap.allocate (hx.grow hR)
  exact ⟨R₄, hR₄, hw.withHeap hR₄ hheap, ho⟩

/-- **The built-in natives do not tell copies apart.** -/
theorem builtIn_impartial : ∀ e ∈ builtIn, e.2.Impartial := by
  unfold builtIn
  simp only [List.forall_mem_cons]
  exact ⟨charAt_impartial _, length_impartial _, equals_impartial _, toUnsignedInt_impartial _,
    arrayCopy_impartial _, clone_impartial _, clone_impartial _, clone_impartial _, by simp⟩

end Native

/-! ## 6. Strings that are literals -/

/-- Whether all strings are instances of literals. -/
def World.onlyLiterals (w : World) : Bool :=
  w.heap.objects.ids.all fun o =>
    (w.heap.object o).chars?.all fun chars =>
    w.literals.lookup (String.ofList chars.toList) == some o

namespace World

variable {w w' : World} {o x y : ObjectId}

/-- A string is the instance of the literal with its text. -/
theorem lookup_of_onlyLiterals (h : w.onlyLiterals = true) {chars : Array Char}
    (ho : (w.heap.object o).chars? = some chars) :
    w.literals.lookup (String.ofList chars.toList) = some o := by
  have hmem : o ∈ w.heap.objects.ids := by
    unfold Heap.object Table.get? at ho
    cases o with
    | zero => simp [HeapObject.chars?] at ho
    | succ n =>
      refine List.mem_map.mpr ⟨n, List.mem_range.mpr (Nat.lt_of_not_le fun hle => ?_), rfl⟩
      simp [Array.getElem?_eq_none hle, HeapObject.chars?] at ho
  have hall := List.all_eq_true.mp h o hmem
  rw [ho] at hall
  exact beq_iff_eq.mp hall

/-- Where all strings are instances of literals, they are equal only to themselves. -/
theorem equalObjects_of_onlyLiterals (h : w.onlyLiterals = true) :
    w.heap.equalObjects x y = (x == y) := by
  rw [Heap.equalObjects_eq]
  cases hx : (w.heap.object x).chars? with
  | none => rfl
  | some left =>
    cases hy : (w.heap.object y).chars? with
    | none => rfl
    | some right =>
      have hiff : left = right ↔ x = y := by
        refine ⟨fun heq => ?_, fun heq => ?_⟩
        · have hlookup := lookup_of_onlyLiterals h hx
          rw [heq, lookup_of_onlyLiterals h hy] at hlookup
          exact (Option.some.inj hlookup).symm
        · rw [heq, hy] at hx
          exact (Option.some.inj hx).symm
      rw [Bool.eq_iff_iff]
      simp [hiff]

/-- **Where all strings are instances of literals**, comparing references in the sense of strings is
comparing them. -/
theorem stringEquals_of_onlyLiterals (h : w.onlyLiterals = true) (a b : Value) :
    w.heap.stringEquals a b = w.heap.sameReference a b := by
  unfold Heap.stringEquals Heap.sameReference
  cases w.heap.reference a with
  | error e => rfl
  | ok a =>
    cases w.heap.reference b with
    | error e => rfl
    | ok b => cases a <;> cases b <;> simp [equalObjects_of_onlyLiterals h]

/-- A new string that is no literal. -/
theorem onlyLiterals_allocate (hw : w.Renamed R w') (chars : Array Char) :
    (World.onlyLiterals { w with heap := (w.heap.allocate (.string chars)).2 }) = false := by
  refine Bool.eq_false_iff.mpr fun h => ?_
  have hlookup : w.literals.lookup (String.ofList chars.toList) = some w.heap.objects.nextId :=
    lookup_of_onlyLiterals h
    (congrArg HeapObject.chars? ((Heap.object_allocate _ _ _).trans (if_pos rfl)))
  have hrel := hw.literals (String.ofList chars.toList)
  rw [hlookup] at hrel
  generalize w'.literals.lookup (String.ofList chars.toList) = u' at hrel
  cases hrel with
  | some ho =>
    have hpresent := (hw.heap.present ho.1).1
    rw [Table.get?_nextId] at hpresent
    cases hpresent

end World

/-! ## 7. Comparisons and concatenations -/

/-- Whether the two values on top of the stack are different copies of one string. -/
def Bench.onCopies (b : Bench) : Bool :=
  match b.stack with
  | y :: x :: _ => b.world.heap.areCopies x y
  | _ => false

namespace Work

variable {i : Insn} {equal : Bool} {l : Nat} {method : String} {u : RunError}
  {inUse inUse' : Thunk (List Value)} {b b' : Bench}

theorem comparison_outcome (hi : i.comparison? = some (equal, l)) (method : String) (u : RunError)
    (inUse : Thunk (List Value)) (w : World) (L : Array Value) (x y : Value) (S : List Value) :
    (perform method u inUse i).outcome ⟨w, L, y :: x :: S⟩ =
      (w.heap.sameReference x y |>.map fun same => jumpIf (same == equal) l, ⟨w, L, S⟩) := by
  have hpop (y : Value) (S : List Value) :
      (pop u).outcome ⟨w, L, y :: S⟩ = (.ok y, ⟨w, L, S⟩) := rfl
  have hsame : (fromHeap fun h => h.sameReference x y).outcome ⟨w, L, S⟩ =
      (w.heap.sameReference x y, ⟨w, L, S⟩) := rfl
  rw [Insn.eq_of_comparison hi]
  cases equal <;> simp only [perform, if_true, if_false, Bool.false_eq_true,
    Action.outcome_bind, hpop, hsame] <;> cases w.heap.sameReference x y <;>
    simp [Except.map] <;> rfl

/-- **A comparison** does the same under other names, if it compares no copies of one string, or all
strings are instances of literals and it compares in the sense of strings. -/
theorem comparison_parallel (hi : i.comparison? = some (equal, l)) (hb : b.Renamed R b')
    {byText : Bool} (htext : byText = true → b.world.onlyLiterals = true)
    (hcopies : byText = false → b'.onCopies = false) :
    Bench.Renamed R ((perform method u inUse i).outcome b).2
        ((performAs byText method u inUse' i).outcome b').2 ∧
      Both (Transfer.Renamed R) ((perform method u inUse i).outcome b).1
        ((performAs byText method u inUse' i).outcome b').1 := by
  obtain ⟨w, L, S⟩ := b
  obtain ⟨w', L', S'⟩ := b'
  obtain ⟨hw, hL, hS⟩ := hb
  simp only at hw hL hS htext
  -- without operands both fail
  have hfail : ∀ {S S' : List Value}, List.Forall₂ (Value.Renamed R) S S' → S.length < 2 →
      Bench.Renamed R ((perform method u inUse i).outcome ⟨w, L, S⟩).2
          ((performAs byText method u inUse' i).outcome ⟨w', L', S'⟩).2 ∧
        Both (Transfer.Renamed R) ((perform method u inUse i).outcome ⟨w, L, S⟩).1
          ((performAs byText method u inUse' i).outcome ⟨w', L', S'⟩).1 := by
    intro S S' hS hshort
    rw [Insn.eq_of_comparison hi]
    cases hS with
    | nil => cases equal <;> cases byText <;> exact ⟨⟨hw, hL, .nil⟩, .failed rfl⟩
    | cons hy hS =>
      cases hS with
      | nil => cases equal <;> cases byText <;> exact ⟨⟨hw, hL, .nil⟩, .failed rfl⟩
      | cons _ _ =>
        simp only [List.length_cons] at hshort
        omega
  cases hS with
  | nil => exact hfail .nil (by simp)
  | @cons y y' S S' hy hS =>
    cases hS with
    | nil => exact hfail (.cons hy .nil) (by simp)
    | @cons x x' S S' hx hS =>
      have hdone {same same' : Except RunError Bool} (hsame : Both Eq same same') :
          Both (Transfer.Renamed R) (same.map fun same => jumpIf (same == equal) l)
            (same'.map fun same => jumpIf (same == equal) l) := by
        cases hsame with
        | failed he => exact .failed he
        | @ok same _ heq =>
          subst heq
          refine .ok ?_
          simp only
          cases same == equal with
          | false => exact .next
          | true => exact .jump l
      rw [comparison_outcome hi]
      cases byText with
      | false =>
        rw [performAs_false, comparison_outcome hi]
        exact ⟨⟨hw, hL, hS⟩, hdone (hw.heap.sameReference hx hy (hcopies rfl))⟩
      | true =>
        have hout : (performAs true method u inUse' i).outcome ⟨w', L', y' :: x' :: S'⟩ =
            ((w'.heap.stringEquals x' y').map fun same => jumpIf (same == equal) l,
                ⟨w', L', S'⟩) := by
          rw [performAs_true hi, jumpIfAlike_outcome]
          cases w'.heap.stringEquals x' y' <;> rfl
        rw [hout, ← World.stringEquals_of_onlyLiterals (htext rfl)]
        exact ⟨⟨hw, hL, hS⟩, hdone (hw.heap.stringEquals hx hy)⟩

/-- **A concatenation** makes a string that is no literal, or fails. -/
theorem concat_parallel (hb : b.Renamed R b') (args : List Ty) (inUse inUse' : Thunk (List Value)) :
    (∃ b₁, (perform method u inUse (.concat args)).outcome b = (.ok .next, b₁) ∧
      b₁.world.onlyLiterals = false) ∨
    (perform method u inUse (.concat args)).outcome b = (.error u, b) ∧
      (perform method u inUse' (.concat args)).outcome b' = (.error u, b') := by
  have hpop (b : Bench) (inUse : Thunk (List Value)) (hshort : b.stack.length < args.length) :
      (perform method u inUse (.concat args)).outcome b = (.error u, b) := by
    have h : (popMany u args.length).outcome b = (.error u, b) := if_pos hshort
    simp only [perform, Action.outcome_bind, h]
  by_cases hshort : b.stack.length < args.length
  · refine Or.inr ⟨hpop b inUse hshort, hpop b' inUse' ?_⟩
    rwa [← hb.stack.length_eq]
  · have h : (popMany u args.length).outcome b =
        (.ok (b.stack.take args.length).reverse, { b with stack := b.stack.drop args.length }) :=
      if_neg hshort
    obtain ⟨text, htext⟩ : ∃ text, (concatText args (b.stack.take args.length).reverse).outcome
        { b with stack := b.stack.drop args.length } =
          (.ok text, { b with stack := b.stack.drop args.length }) := ⟨_, rfl⟩
    have hout : (perform method u inUse (.concat args)).outcome b =
        (.ok .next, ⟨{ b.world with heap := (b.world.heap.allocate (.ofText text)).2 }, b.locals,
          .ref (b.world.heap.allocate (.ofText text)).1 :: b.stack.drop args.length⟩) := by
      simp only [perform, Action.outcome_bind, h, htext]
      rfl
    exact Or.inl ⟨_, hout, World.onlyLiterals_allocate hb.world _⟩

/-- **Every instruction** does the same under other names, as long as all strings are instances of
literals and it compares no copies of one string. -/
theorem performAs_parallel (method : String) (u : RunError) (inUse inUse' : Thunk (List Value))
    (hhook : ∀ h, i ≠ .hook h) (hb : b.Renamed R b') {byText : Bool}
    (htext : byText = true → b.world.onlyLiterals = true)
    (hcopies : byText = false → i.comparison?.isSome → b'.onCopies = false) :
    (∃ b₁, (perform method u inUse i).outcome b = (.ok .next, b₁) ∧
      b₁.world.onlyLiterals = false) ∨
    ∃ R', R.Grows R' ∧ Bench.Renamed R' ((perform method u inUse i).outcome b).2
        ((performAs byText method u inUse' i).outcome b').2 ∧
      Both (Transfer.Renamed R') ((perform method u inUse i).outcome b).1
        ((performAs byText method u inUse' i).outcome b').1 := by
  cases hi : i.comparison? with
  | some c =>
    obtain ⟨equal, l⟩ := c
    exact Or.inr ⟨R, .refl R, comparison_parallel hi hb htext fun h => hcopies h (by simp [hi])⟩
  | none =>
    have hplain : performAs byText method u inUse' i = perform method u inUse' i := by
      unfold performAs
      rw [hi]
      cases byText <;> rfl
    rw [hplain]
    by_cases hconcat : ∃ args, i = .concat args
    · obtain ⟨args, rfl⟩ := hconcat
      rcases concat_parallel hb args inUse inUse' with hmade | ⟨hfail, hfail'⟩
      · exact Or.inl hmade
      · refine Or.inr ⟨R, .refl R, ?_⟩
        rw [hfail, hfail']
        exact ⟨hb, .failed rfl⟩
    · exact Or.inr (perform_parallel R method u inUse inUse' hhook hi
        (fun args h => hconcat ⟨args, h⟩) R (.refl R) b b' hb)

end Work

end Provenance
