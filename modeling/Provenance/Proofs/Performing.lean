/-
# An instruction does the same with and without tracking

The locals of a woven method are those of the original and, above them, locals for points and
records (`extra`).  An instruction of the original never reaches that far, so performed in the two
it gives the same transfer or fails in the same kind of way, and changes the heap in the same way
(`Work.perform_matched`).  The built-in natives do the same whatever record comes with the call
(`Native.builtIn_blind`).
-/
import Provenance.Proofs.SameWorld

namespace Provenance

variable {known : Nat → Prop} {n : Nat} {extra : List Value}

/-! ## 1. Benches -/

/-- What an instruction works on, in the original and in a woven method. -/
structure Bench.Alike (known : Nat → Prop) (n : Nat) (extra : List Value)
    (b b' : Bench) : Prop where
  world : World.Same known b.world b'.world
  locals : b'.locals.toList = b.locals.toList ++ extra
  size : b.locals.size = n
  stack : b'.stack = b.stack
  localsWithin : ∀ v ∈ b.locals.toList, v.Within known
  stackWithin : ∀ v ∈ b.stack, v.Within known

/-- A transfer that passes on only values within. -/
def Transfer.Within (known : Nat → Prop) : Transfer → Prop
  | .call _ args => ∀ v ∈ args, v.Within known
  | .ret v => ∀ u ∈ v, u.Within known
  | _ => True

namespace Work

open Provenance.Action.Matched

/-- Two pieces of work that agree on benches that are alike. -/
abbrev Matched {α : Type} (known : Nat → Prop) (n : Nat) (extra : List Value) (P : α → Prop)
    (x x' : Work α) : Prop :=
  Action.Matched (Bench.Alike known n extra) P x x'

/-! ## 2. The small actions -/

theorem push_matched {v : Value} (hv : v.Within known) :
    Matched known n extra (fun _ => True) (push v) (push v) := by
  refine update fun b b' h => ⟨rfl, trivial, ?_⟩
  exact ⟨h.world, h.locals, h.size, by simp [h.stack], h.localsWithin,
    List.forall_mem_cons.mpr ⟨hv, h.stackWithin⟩⟩

theorem pop_matched {u u' : RunError} (hu : u'.kind = u.kind) :
    Matched known n extra (fun v => v.Within known) (pop u) (pop u') := by
  intro b b' h
  unfold Action.outcome pop
  cases hs : b.stack with
  | nil =>
    simp only [h.stack, hs]
    exact .failed hu h
  | cons v rest =>
    have hw := h.stackWithin
    rw [hs] at hw
    obtain ⟨hv, hrest⟩ := List.forall_mem_cons.mp hw
    simp only [h.stack, hs]
    exact .ok hv ⟨h.world, h.locals, h.size, rfl, h.localsWithin, hrest⟩

theorem popMany_matched {u u' : RunError} (hu : u'.kind = u.kind) (count : Nat) :
    Matched known n extra (fun vs => ∀ v ∈ vs, v.Within known) (popMany u count)
      (popMany u' count) := by
  intro b b' h
  unfold Action.outcome popMany
  rw [h.stack]
  split
  · exact .failed hu h
  · refine .ok (fun v hv => ?_) ⟨h.world, h.locals, h.size, rfl, h.localsWithin, ?_⟩
    · exact h.stackWithin v (List.mem_of_mem_take (List.mem_reverse.mp hv))
    · exact fun v hv => h.stackWithin v (List.mem_of_mem_drop hv)

/-- Reading the heap gives the same. -/
theorem fromHeap_matched {α : Type} {P : α → Prop} {f : Heap → Except RunError α}
    (hf : ∀ h : Heap, h.Within known → ∀ a, f h = .ok a → P a) :
    Matched known n extra P (fromHeap f) (fromHeap f) := by
  refine inspect fun b b' h => ?_
  rw [h.world.heap]
  cases hr : f b.world.heap with
  | error e => exact .failed rfl trivial
  | ok a => exact .ok (hf _ h.world.within a hr) trivial

theorem onHeap_matched {α : Type} {P : α → Prop} {f : Heap → α × Heap}
    (hf : ∀ h : Heap, h.Within known → P (f h).1 ∧ (f h).2.Within known) :
    Matched known n extra P (onHeap f) (onHeap f) := by
  refine update fun b b' h => ?_
  rw [h.world.heap]
  obtain ⟨hP, hheap⟩ := hf _ h.world.within
  exact ⟨rfl, hP, h.world.withHeap hheap, h.locals, h.size, h.stack, h.localsWithin, h.stackWithin⟩

theorem popInt_matched {u u' : RunError} (hu : u'.kind = u.kind) :
    Matched known n extra (fun _ => True) (popInt u) (popInt u') :=
  bind (pop_matched hu) fun _ _ => fromHeap_matched fun _ _ _ _ => trivial

theorem popTarget_matched {u u' : RunError} (hu : u'.kind = u.kind) (context : String) :
    Matched known n extra (fun _ => True) (popTarget u context) (popTarget u' context) :=
  bind (pop_matched hu) fun _ _ => fromHeap_matched fun _ _ _ _ => trivial

theorem allocate_matched {x : HeapObject} (hx : x.Within known) :
    Matched known n extra (fun _ => True) (allocate x) (allocate x) :=
  onHeap_matched fun _ hh => ⟨trivial, hh.allocate hx⟩

theorem storeElement_matched {o : ObjectId} {index : Int32} {v : Value} (hv : v.Within known) :
    Matched known n extra (fun _ => True) (storeElement o index v) (storeElement o index v) := by
  unfold storeElement
  refine bind (P := fun _ => True) (fromHeap_matched fun _ _ _ _ => trivial) fun i _ => ?_
  exact onHeap_matched fun _ hh => ⟨trivial, hh.putElement hv⟩

theorem changeHeap_matched {f : Heap → Except RunError Heap}
    (hf : ∀ h h' : Heap, h.Within known → f h = .ok h' → h'.Within known) :
    Matched known n extra (fun _ => True) (changeHeap f) (changeHeap f) := by
  unfold changeHeap
  refine bind (P := fun h : Heap => h.Within known) (fromHeap_matched fun h hh h' => hf h h' hh)
    fun h hh => ?_
  exact onHeap_matched fun _ _ => ⟨trivial, hh⟩

theorem constant_matched (c : Constant) :
    Matched known n extra (fun v => v.Within known) (constant c) (constant c) := by
  cases c with
  | str text =>
    refine bind (P := fun _ => True) ?_ fun _ _ => pure trivial
    refine update fun b b' h => ?_
    have hliteral : b'.world.literal text = ((b.world.literal text).1,
        { b'.world with
          heap := (b.world.literal text).2.heap, literals :=
              (b.world.literal text).2.literals }) := by
      unfold World.literal World.allocate
      rw [h.world.literals, h.world.heap]
      cases b.world.literals.lookup text with
      | some o => rw [← h.world.heap, ← h.world.literals]
      | none => rfl
    have hwithin : (b.world.literal text).2.heap.Within known := by
      unfold World.literal World.allocate
      cases b.world.literals.lookup text with
      | some o => exact h.world.within
      | none => exact h.world.within.allocate (HeapObject.within_ofText text)
    have hstore : (b.world.literal text).2.store = b.world.store := by
      unfold World.literal World.allocate
      cases b.world.literals.lookup text <;> rfl
    simp only [hliteral]
    refine ⟨trivial, trivial, ⟨rfl, rfl, hwithin, ?_⟩, h.locals, h.size, h.stack, h.localsWithin,
      h.stackWithin⟩
    rw [hstore]
    exact h.world.records
  | _ => exact pure trivial

/-- A local of the original, read in both. -/
theorem loadLocal_matched {method method' : String} {l : Nat} (hl : l < n ∨ extra = []) :
    Matched known n extra (fun v => v.Within known) (loadLocal method l) (loadLocal method' l) := by
  refine inspect fun b b' h => ?_
  have hsame : b'.locals[l]? = b.locals[l]? := by
    rw [← Array.getElem?_toList, ← Array.getElem?_toList, h.locals]
    rcases hl with hl | hl
    · rw [List.getElem?_append_left (by rw [Array.length_toList, h.size]; exact hl)]
    · rw [hl, List.append_nil]
  rw [hsame]
  cases hv : b.locals[l]? with
  | none => exact .failed rfl trivial
  | some v =>
    rw [← Array.getElem?_toList] at hv
    exact .ok (h.localsWithin v (List.mem_of_getElem? hv)) trivial

/-- A local of the original, written in both. -/
theorem storeLocal_matched {method method' : String} {l : Nat} (hl : l < n ∨ extra = []) {v : Value}
    (hv : v.Within known) :
    Matched known n extra (fun _ => True) (storeLocal method l v) (storeLocal method' l v) := by
  refine bind (P := fun _ => l < n) (inspect fun b b' h => ?_) fun _ hlt => update fun b b' h => ?_
  · have hsize : l < b'.locals.size ↔ l < b.locals.size := by
      rw [← Array.length_toList, ← Array.length_toList, h.locals, List.length_append,
        Array.length_toList, h.size]
      rcases hl with hl | hl
      · omega
      · simp [hl]
    by_cases hb : l < b.locals.size
    · rw [if_pos hb, if_pos (hsize.mpr hb)]
      exact .ok (h.size ▸ hb) trivial
    · rw [if_neg hb, if_neg (mt hsize.mp hb)]
      exact .failed rfl trivial
  · refine ⟨rfl, trivial, h.world, ?_, by simp [h.size], h.stack, ?_, h.stackWithin⟩
    · simp only [Array.toList_setIfInBounds, h.locals]
      rw [List.set_append_left _ _ (by rw [Array.length_toList, h.size]; exact hlt)]
    · exact Heap.forall_setIfInBounds h.localsWithin hv

theorem concatText_matched {args : List Ty} {values : List Value}
    (hvalues : ∀ v ∈ values, v.Within known) :
    Matched known n extra (fun _ => True) (concatText args values) (concatText args values) := by
  refine inspect fun b b' h => ?_
  have hsame : ∀ e ∈ args.zip values, b'.world.render e.1 e.2 = b.world.render e.1 e.2 :=
    fun e he => h.world.render e.1 (hvalues e.2 (List.of_mem_zip he).2)
  rw [List.map_congr_left hsame]
  exact .ok trivial trivial

/-! ## 3. One instruction -/

/-- **An instruction does the same** in the original and in a woven method, as long as it reaches
no local of the woven code. -/
theorem perform_matched (method method' : String) {u u' : RunError} (hu : u'.kind = u.kind)
    (inUse inUse' : Thunk (List Value)) {i : Insn} (hhook : ∀ h, i ≠ .hook h)
    (hlocal : ∀ l, i.local? = some l → l < n ∨ extra = []) :
    Matched known n extra (Transfer.Within known) (perform method u inUse i)
      (perform method' u' inUse' i) := by
  have hnext {x x' : Work Unit} (hx : Matched known n extra (fun _ => True) x x') :
      Matched known n extra (Transfer.Within known) (do x; return .next) (do x'; return .next) :=
    bind hx fun _ _ => pure trivial
  have hjump (b : Bool) (l : Nat) : (jumpIf b l).Within known := by
    cases b <;> trivial
  cases i with
  | nop => exact pure trivial
  | label l => exact pure trivial
  | goto l => exact pure trivial
  | const c => exact bind (constant_matched c) fun v hv => hnext (push_matched hv)
  | load l => exact bind (loadLocal_matched (hlocal l rfl)) fun v hv => hnext (push_matched hv)
  | store l =>
    exact bind (pop_matched hu) fun v hv => hnext (storeLocal_matched (hlocal l rfl) hv)
  | dup =>
    refine bind (pop_matched hu) fun v hv => ?_
    exact bind (push_matched hv) fun _ _ => hnext (push_matched hv)
  | dupX1 =>
    refine bind (pop_matched hu) fun b hb => bind (pop_matched hu) fun a ha => ?_
    exact bind (push_matched hb) fun _ _ => bind (push_matched ha) fun _ _ =>
      hnext (push_matched hb)
  | dup2 =>
    refine bind (pop_matched hu) fun b hb => bind (pop_matched hu) fun a ha => ?_
    exact bind (push_matched ha) fun _ _ => bind (push_matched hb) fun _ _ =>
      bind (push_matched ha) fun _ _ => hnext (push_matched hb)
  | pop => exact bind (pop_matched hu) fun _ _ => pure trivial
  | swap =>
    refine bind (pop_matched hu) fun b hb => bind (pop_matched hu) fun a ha => ?_
    exact bind (push_matched hb) fun _ _ => hnext (push_matched ha)
  | arrayLoad t =>
    refine bind (popInt_matched hu) fun index _ => bind (popTarget_matched hu _) fun o _ => ?_
    exact bind (fromHeap_matched fun h hh v hv => hh.load hv) fun v hv => hnext (push_matched hv)
  | arrayStore t =>
    refine bind (pop_matched hu) fun v hv => bind (popInt_matched hu) fun index _ => ?_
    exact bind (popTarget_matched hu _) fun o _ => hnext (storeElement_matched hv)
  | arrayLength =>
    refine bind (popTarget_matched hu _) fun o _ => ?_
    exact bind (P := fun _ => True) (fromHeap_matched fun _ _ _ _ => trivial) fun n _ =>
      hnext (push_matched trivial)
  | newArray t =>
    refine bind (popInt_matched hu) fun count _ => ?_
    split
    · exact throw rfl
    · exact bind (allocate_matched (HeapObject.within_newArray t _)) fun o _ =>
        hnext (push_matched trivial)
  | getField fd =>
    refine bind (popTarget_matched hu _) fun o _ => ?_
    exact bind (fromHeap_matched fun h hh v hv => hh.getField hv) fun v hv =>
      hnext (push_matched hv)
  | putField fd =>
    refine bind (pop_matched hu) fun v hv => bind (popTarget_matched hu _) fun o _ => ?_
    exact hnext (changeHeap_matched fun h h' hh hput => hh.putField hv hput)
  | binary op t =>
    refine bind (pop_matched hu) fun b _ => bind (pop_matched hu) fun a _ => ?_
    exact bind (fromHeap_matched fun h _ v hv => Heap.within_binary hv) fun v hv =>
      hnext (push_matched hv)
  | convert source target =>
    refine bind (pop_matched hu) fun a _ => ?_
    exact bind (fromHeap_matched fun h _ v hv => Heap.within_convert hv) fun v hv =>
      hnext (push_matched hv)
  | invoke m => exact bind (popMany_matched hu _) fun args hargs => pure hargs
  | concat args =>
    refine bind (popMany_matched hu _) fun values hvalues => ?_
    refine bind (concatText_matched hvalues) fun text _ => ?_
    exact bind (allocate_matched (HeapObject.within_ofText text)) fun o _ =>
      hnext (push_matched trivial)
  | ifZero cond l =>
    exact bind (popInt_matched hu) fun v _ => pure (hjump _ l)
  | ifCmp cond l =>
    exact bind (popInt_matched hu) fun b _ => bind (popInt_matched hu) fun a _ => pure (hjump _ l)
  | ifNull l =>
    refine bind (pop_matched hu) fun v _ => ?_
    exact bind (P := fun _ => True) (fromHeap_matched fun _ _ _ _ => trivial) fun o _ =>
      pure (hjump _ l)
  | ifNonNull l =>
    refine bind (pop_matched hu) fun v _ => ?_
    exact bind (P := fun _ => True) (fromHeap_matched fun _ _ _ _ => trivial) fun o _ =>
      pure (hjump _ l)
  | ifRefEq l =>
    refine bind (pop_matched hu) fun b _ => bind (pop_matched hu) fun a _ => ?_
    exact bind (P := fun _ => True) (fromHeap_matched fun _ _ _ _ => trivial) fun same _ =>
      pure (hjump _ l)
  | ifRefNe l =>
    refine bind (pop_matched hu) fun b _ => bind (pop_matched hu) fun a _ => ?_
    exact bind (P := fun _ => True) (fromHeap_matched fun _ _ _ _ => trivial) fun same _ =>
      pure (hjump _ l)
  | ret t =>
    by_cases ht : t = .void
    · simp only [perform, ht, if_true]
      exact pure fun v hv => by simp at hv
    · simp only [perform, ht, if_false]
      refine bind (pop_matched hu) fun v hv => pure fun w hw => ?_
      rw [Option.mem_def, Option.some.injEq] at hw
      exact hw ▸ hv
  | hook h => exact absurd rfl (hhook h)

end Work

/-! ## 4. Natives that do not look at call records -/

/-- What a native gives and does to the heap does not depend on the record that comes with the
call, nor on what else is known of origins. -/
def Native.Blind (native : Native) : Prop :=
  ∀ (known : Nat → Prop) (key : String) (args : List Value) (record record' : Option Nat),
    (∀ v ∈ args, v.Within known) →
    Action.Matched (World.Same known) (fun v? => ∀ v ∈ v?, v.Within known)
      (native.body ⟨key, args, record⟩) (native.body ⟨key, args, record'⟩)

namespace Native

open Provenance.Action.Matched

variable {key : String} {args : List Value} {record record' : Option Nat}

theorem arg_matched (hargs : ∀ v ∈ args, v.Within known) (index : Nat) :
    Action.Matched (World.Same known) (fun v => v.Within known)
      (NativeCall.arg ⟨key, args, record⟩ index) (NativeCall.arg ⟨key, args, record'⟩ index) := by
  refine inspect fun w w' h => ?_
  cases hi : args[index]? with
  | none => exact .failed rfl trivial
  | some v => exact .ok (hargs v (List.mem_of_getElem? hi)) trivial

/-- Looking at the heap gives a native the same. -/
theorem look_matched {α : Type} {P : α → Prop} (f : Heap → Except RunError α)
    (hf : ∀ h : Heap, h.Within known → ∀ a, f h = .ok a → P a) :
    Action.Matched (World.Same known) P (Action.inspect fun w => f w.heap)
      (Action.inspect fun w => f w.heap) := by
  refine inspect fun w w' h => ?_
  rw [h.heap]
  cases hr : f w.heap with
  | error e => exact .failed rfl trivial
  | ok a => exact .ok (hf _ h.within a hr) trivial

theorem target_matched (hargs : ∀ v ∈ args, v.Within known) (index : Nat) :
    Action.Matched (World.Same known) (fun _ => True)
      (NativeCall.target ⟨key, args, record⟩ index)
      (NativeCall.target ⟨key, args, record'⟩ index) := by
  unfold NativeCall.target
  exact bind (arg_matched hargs index) fun v _ =>
    look_matched (fun h => h.target key v) fun _ _ _ _ => trivial

theorem int_matched (hargs : ∀ v ∈ args, v.Within known) (index : Nat) :
    Action.Matched (World.Same known) (fun _ => True) (NativeCall.int ⟨key, args, record⟩ index)
      (NativeCall.int ⟨key, args, record'⟩ index) := by
  unfold NativeCall.int
  exact bind (arg_matched hargs index) fun v _ =>
    look_matched (fun h => h.int v) fun _ _ _ _ => trivial

theorem charAt_blind (held : List Value) : Blind ⟨charAt, held⟩ := by
  intro known key args record record' hargs
  refine bind (int_matched hargs 1) fun index _ => bind (target_matched hargs 0) fun o _ => ?_
  refine bind (P := fun _ => True)
    (look_matched (fun h => h.charAt o index) fun _ _ _ _ => trivial) fun char _ => pure ?_
  simp

theorem length_blind (held : List Value) : Blind ⟨length, held⟩ := by
  intro known key args record record' hargs
  refine bind (target_matched hargs 0) fun o _ => ?_
  refine bind (P := fun _ => True) (look_matched (fun h => h.length o) fun _ _ _ _ => trivial)
    fun n _ => pure ?_
  simp

theorem equals_blind (held : List Value) : Blind ⟨equals, held⟩ := by
  intro known key args record record' hargs
  refine bind (arg_matched hargs 0) fun a _ => bind (arg_matched hargs 1) fun b _ => ?_
  refine bind (P := fun _ => True)
    (look_matched (fun h => h.stringEquals a b) fun _ _ _ _ => trivial)
    fun same _ => pure ?_
  simp [Value.ofBool]

theorem toUnsignedInt_blind (held : List Value) : Blind ⟨toUnsignedInt, held⟩ := by
  intro known key args record record' hargs
  refine bind (int_matched hargs 0) fun n _ => pure ?_
  simp

theorem arrayCopy_blind (held : List Value) : Blind ⟨arrayCopy, held⟩ := by
  intro known key args record record' hargs
  refine bind (target_matched hargs 0) fun source _ =>
    bind (target_matched hargs 2) fun target _ => ?_
  refine bind (int_matched hargs 1) fun position _ => bind (int_matched hargs 3) fun start _ => ?_
  refine bind (int_matched hargs 4) fun length _ => ?_
  refine bind (P := fun h : Heap => h.Within known) (look_matched
    (fun h => h.copyRange source position target start length) fun h hh h' => hh.copyRange)
    fun heap hheap => ?_
  refine bind (P := fun _ => True) (update fun w w' h => ⟨rfl, trivial, h.withHeap hheap⟩)
    fun _ _ => pure ?_
  simp

theorem clone_blind (held : List Value) : Blind ⟨clone, held⟩ := by
  intro known key args record record' hargs
  refine bind (target_matched hargs 0) fun o _ => ?_
  refine bind (P := fun x : HeapObject => x.Within known) (look_matched
    (fun h => h.duplicate o) fun h hh x => hh.duplicate) fun x hx => ?_
  refine bind (P := fun _ => True) (update fun w w' h => ?_) fun copy _ => pure ?_
  · refine ⟨?_, trivial, ?_⟩
    · simp only [World.allocate, h.heap]
    · have heap' : (w'.allocate x).2 = { w' with heap := (w.heap.allocate x).2 } := by
        simp only [World.allocate, h.heap]
      rw [heap']
      exact h.withHeap (h.within.allocate hx)
  · simp

/-- **The built-in natives do not look at call records.** -/
theorem builtIn_blind : ∀ e ∈ builtIn, e.2.Blind := by
  unfold builtIn
  simp only [List.forall_mem_cons]
  exact ⟨charAt_blind _, length_blind _, equals_blind _, toUnsignedInt_blind _, arrayCopy_blind _,
    clone_blind _, clone_blind _, clone_blind _, by simp⟩

end Native

end Provenance
