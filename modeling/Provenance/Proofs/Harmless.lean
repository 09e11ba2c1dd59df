/-
# Hooks fail only where the program would

A hook expects operands of certain kinds (`Hook.operands`), and a few hooks stand for something that
the program does: the store of an element, the copy of an array, its clone (`Hook.EffectSucceeds`).
Whatever is wrong with the store, or with what a hook asks of it, is no failure of the program: no
such table of literals, a range outside of it, a tracker that takes no sources, no such argument
slot, tracking suspended.  On operands of these kinds a hook goes well whenever the effect does, and
it takes and leaves as many values as it declares (`Work.hook_harmless`).  Only a range that ends
beyond the words is a failure (`hook_stops`).

Each hook that stands for something is described by what it does to the heap, as a function of the
heap and its operands alone.
-/
import Provenance.Proofs.HooksInWords
import Provenance.Proofs.Replacing
import Provenance.Proofs.Taking
import Mathlib.Data.List.Forall2

namespace Provenance

open Provenance.Action (Wp)

/-! ## 1. What hooks expect and leave -/

/-- What a value on the stack is expected to be. -/
inductive OperandKind where
  | any
  | int
  /-- An object or null. -/
  | reference
  /-- A point or null. -/
  | point
  /-- A call record or null. -/
  | record
  deriving DecidableEq, Repr

def OperandKind.Admits : OperandKind → Value → Prop
  | any, _ => True
  | int, v => ∃ n, v = .int n
  | reference, v => v = .null ∨ ∃ o, v = .ref o
  | point, v => ∃ p, v = .ofPoint p
  | record, v => ∃ r, v = .ofRecord r

namespace Hook

/-- The operands that a hook expects, the top first. -/
def operands : Hook → List OperandKind
  | constantPoint _ | invocationCreate _ | invocationStart _ => []
  | elementPoint => [.int, .reference]
  | arrayStoreWithPoint _ => [.point, .any, .int, .reference]
  | fieldPoint _ => [.reference]
  | setFieldPoint _ => [.point, .reference]
  | invocationSetArg _ | invocationReturning => [.point, .record]
  | invocationCalling | invocationArgPoint _ | invocationReturnPoint => [.record]
  | stringEquals => [.reference, .reference]
  | concatWithPoints args mask =>
    List.replicate (markedCount mask) .point ++ List.replicate args.length .any
  | constantString _ _ | arrayClone => [.reference]
  | arrayCopy => [.int, .int, .reference, .int, .reference]

/-- What a hook leaves in their place. -/
def results : Hook → List OperandKind
  | constantPoint _ | elementPoint | fieldPoint _ | invocationArgPoint _ | invocationReturnPoint =>
    [.point]
  | invocationCreate _ | invocationSetArg _ | invocationCalling | invocationStart _ => [.record]
  | stringEquals => [.int]
  | concatWithPoints _ _ | constantString _ _ | arrayClone => [.reference]
  | arrayStoreWithPoint _ | setFieldPoint _ | invocationReturning | arrayCopy => []

/-- The kinds of operands are as many as the hook declares. -/
theorem effect_eq (h : Hook) : h.effect = (h.operands.length, h.results.length) := by
  cases h with
  | concatWithPoints args mask => simp [effect, operands, results, Nat.add_comm]
  | _ => rfl

end Hook

/-! ## 2. What the program does -/

namespace Heap

/-- The store of an element. -/
def storeAt (h : Heap) (array index value : Value) : Except RunError Heap := do
  let n ← h.int index
  let o ← h.target "array store" array
  h.store o n value

/-- The copy of a range of an array, with the operands of the call. -/
def copyAt (h : Heap) (source position target targetPosition length : Value) :
    Except RunError Heap := do
  let o ← h.target "arraycopy source" source
  let t ← h.target "arraycopy target" target
  let p ← h.int position
  let q ← h.int targetPosition
  let n ← h.int length
  h.copyRange o p t q n

/-- The clone of an array. -/
def cloneAt (h : Heap) (array : Value) : Except RunError HeapObject := do
  let o ← h.target "clone" array
  h.duplicate o

variable {ε α β : Type} {f : α → Except ε β}

theorem ok_bind (a : α) : (.ok a >>= f) = f a := rfl

theorem error_bind (e : ε) : (.error e >>= f) = .error e := rfl

end Heap

/-- An action comes to a result. -/
def Action.Succeeds {σ α : Type} (x : Action σ α) (s : σ) : Prop := (x.outcome s).1.isOk

theorem Action.succeeds_iff {σ α : Type} {x : Action σ α} {s : σ} :
    x.Succeeds s ↔ Wp x (fun _ _ => True) (fun _ _ => False) s := by
  unfold Succeeds Wp
  rcases x.outcome s with ⟨r, t⟩
  cases r <;> simp [Except.isOk, Except.toBool]

/-- The effect of the program that a hook stands for succeeds on its operands.  Most hooks stand for
none. -/
def Hook.EffectSucceeds (w : World) (operands : List Value) : Hook → Prop
  | .arrayStoreWithPoint elem =>
    (Work.perform "" Work.hookUnderflow (.pure []) (.arrayStore elem)).Succeeds
      ⟨w, #[], operands.tail⟩
  | .arrayCopy => (Native.arrayCopy ⟨"", operands.reverse, none⟩).Succeeds w
  | .arrayClone => (Native.clone ⟨"", operands, none⟩).Succeeds w
  | _ => True

variable {w : World} {L : Array Value} {S : List Value} {inUse : Thunk (List Value)}

namespace Heap

theorem storeAt_of_effect {elem : Ty} {point value index array : Value}
    (h : (Hook.arrayStoreWithPoint elem).EffectSucceeds w [point, value, index, array]) :
    ∃ heap, w.heap.storeAt array index value = .ok heap := by
  have h := Action.succeeds_iff.mp h
  simp only [Work.perform, Work.popInt, Work.popTarget, Work.storeElement, Action.wp_bind,
    Work.wp_pop_cons, Work.wp_fromHeap, List.tail_cons] at h
  unfold storeAt
  cases hn : w.heap.int index with
  | error e => simp only [hn] at h
  | ok n =>
    cases ho : w.heap.target "array store" array with
    | error e => simp only [hn, ho] at h
    | ok o =>
      cases hi : w.heap.elementPlace o n with
      | error e => simp only [hn, ho, hi] at h
      | ok i => exact ⟨w.heap.putElement o i value, by simp only [ok_bind, store, hi]⟩

theorem copyAt_of_effect {source position target targetPosition length : Value}
    (h : Hook.arrayCopy.EffectSucceeds w [length, targetPosition, target, position, source]) :
    ∃ heap, w.heap.copyAt source position target targetPosition length = .ok heap := by
  have h := Action.succeeds_iff.mp h
  simp only [Native.arrayCopy, NativeCall.target, NativeCall.int, NativeCall.arg, List.reverse_cons,
    List.reverse_nil, List.nil_append, List.cons_append, Action.wp_bind, Action.wp_inspect,
    List.getElem?_cons_zero, List.getElem?_cons_succ] at h
  unfold copyAt
  rcases Work.target_cases w.heap "" "arraycopy source" source with ⟨o, ho, ho'⟩ | ⟨e, -, he, -, -⟩
  case inr => simp only [he] at h
  rcases Work.target_cases w.heap "" "arraycopy target" target with ⟨t, ht, ht'⟩ | ⟨e, -, he, -, -⟩
  case inr => simp only [ho, he] at h
  simp only [ho, ht] at h
  cases hp : w.heap.int position with
  | error e => simp only [hp] at h
  | ok p =>
    cases hq : w.heap.int targetPosition with
    | error e => simp only [hp, hq] at h
    | ok q =>
      cases hn : w.heap.int length with
      | error e => simp only [hp, hq, hn] at h
      | ok n =>
        cases hcopy : w.heap.copyRange o p t q n with
        | error e => simp only [hp, hq, hn, hcopy] at h
        | ok heap => exact ⟨heap, by simp only [ho', ht', ok_bind, hcopy]⟩

theorem cloneAt_of_effect {array : Value} (h : Hook.arrayClone.EffectSucceeds w [array]) :
    ∃ x, w.heap.cloneAt array = .ok x := by
  have h := Action.succeeds_iff.mp h
  simp only [Native.clone, NativeCall.target, NativeCall.arg, Action.wp_bind, Action.wp_inspect,
    List.getElem?_cons_zero] at h
  unfold cloneAt
  rcases Work.target_cases w.heap "" "clone" array with ⟨o, ho, ho'⟩ | ⟨e, -, he, -, -⟩
  case inr => simp only [he] at h
  cases hdup : w.heap.duplicate o with
  | error e => simp only [ho, hdup] at h
  | ok x => exact ⟨x, by simp only [ho', ok_bind, hdup]⟩

end Heap

/-! ## 3. Hooks that stand for something -/

namespace Work

open Heap (ok_bind error_bind)

/-- **A store with a point** is a store to the heap. -/
theorem wp_arrayStoreWithPoint (elem : Ty) (point : Option Point) (value index array : Value) :
    Wp (hook inUse (.arrayStoreWithPoint elem))
      (fun _ b => ∃ heap, w.heap.storeAt array index value = .ok heap ∧
        Left { w with heap } L [] S b)
      (fun e b => w.heap.storeAt array index value = .error e ∧ w.Follows b.world)
      ⟨w, L, .ofPoint point :: value :: index :: array :: S⟩ := by
  unfold hook storeWithPoint storeWithPointBy take popInt popTarget storeElement Heap.storeAt
  simp only [Action.wp_bind, wp_pop_cons, wp_fromHeap, wp_onHeap, point_ofPoint]
  cases w.heap.int index with
  | error e => exact ⟨rfl, .refl w⟩
  | ok n =>
    simp only [ok_bind]
    cases w.heap.target "array store" array with
    | error e => exact ⟨rfl, .refl w⟩
    | ok o =>
      simp only [ok_bind, Heap.store]
      cases w.heap.elementPlace o n with
      | error e => exact ⟨rfl, .refl w⟩
      | ok i =>
        exact (setSource_silent o _ _ _ _ _).mono (fun _ b hb => ⟨_, rfl, hb⟩) fun _ _ h => h.elim

/-- **The copy of an array** is a copy on the heap. -/
theorem wp_arrayCopy (source position target targetPosition length : Value) :
    Wp (hook inUse .arrayCopy)
      (fun _ b => ∃ heap, w.heap.copyAt source position target targetPosition length = .ok heap ∧
        Left { w with heap } L [] S b)
      (fun e b => w.heap.copyAt source position target targetPosition length = .error e ∧
        w.Follows b.world)
      ⟨w, L, length :: targetPosition :: target :: position :: source :: S⟩ := by
  unfold hook Heap.copyAt
  rw [Action.wp_bind, wp_popMany, if_neg (by simp only [List.length_cons]; omega)]
  simp only [List.take_succ_cons, List.take_zero, List.reverse_cons, List.reverse_nil,
    List.nil_append, List.cons_append, List.drop_succ_cons, List.drop_zero, copyArray, copyArrayBy,
    changeHeap, Action.wp_bind, wp_fromHeap, wp_onHeap]
  cases w.heap.target "arraycopy source" source with
  | error e => exact ⟨rfl, .refl w⟩
  | ok o =>
    simp only [ok_bind]
    cases w.heap.target "arraycopy target" target with
    | error e => exact ⟨rfl, .refl w⟩
    | ok t =>
      simp only [ok_bind]
      cases w.heap.int position with
      | error e => exact ⟨rfl, .refl w⟩
      | ok p =>
        simp only [ok_bind]
        cases w.heap.int targetPosition with
        | error e => exact ⟨rfl, .refl w⟩
        | ok q =>
          simp only [ok_bind]
          cases w.heap.int length with
          | error e => exact ⟨rfl, .refl w⟩
          | ok n =>
            simp only [ok_bind]
            cases w.heap.copyRange o p t q n with
            | error e => exact ⟨rfl, .refl w⟩
            | ok heap =>
              refine (trackerOf_silent o _).mono (fun tracker b hb => ?_) fun _ _ h => h.elim
              rw [Action.wp_bind]
              refine (setSource_silent t _ _ _ _ b).mono (fun _ b' hb' => ?_) fun _ _ h => h.elim
              exact ⟨heap, rfl, hb.world.trans hb'.world, hb'.locals.trans hb.locals,
                hb'.stack.trans hb.stack⟩

/-- **The clone of an array** is a clone on the heap. -/
theorem wp_arrayClone (array : Value) :
    Wp (hook inUse .arrayClone)
      (fun _ b => ∃ x, w.heap.cloneAt array = .ok x ∧
        Left { w with heap := (w.heap.allocate x).2 } L [.ref (w.heap.allocate x).1] S b)
      (fun e b => w.heap.cloneAt array = .error e ∧ w.Follows b.world) ⟨w, L, array :: S⟩ := by
  unfold hook take cloneArray cloneArrayBy allocate Heap.cloneAt
  simp only [Action.wp_bind, wp_pop_cons, wp_fromHeap, wp_onHeap]
  cases w.heap.target "clone" array with
  | error e => exact ⟨rfl, .refl w⟩
  | ok o =>
    simp only [ok_bind]
    cases hdup : w.heap.duplicate o with
    | error e => exact ⟨rfl, .refl w⟩
    | ok x =>
      refine (trackerOf_silent o _).mono (fun tracker b hb => ?_) fun _ _ h => h.elim
      cases tracker with
      | none => exact ⟨x, rfl, hb.world, hb.locals, congrArg (Value.ref _ :: ·) hb.stack⟩
      | some tracker =>
        obtain ⟨elem, values, -, rfl⟩ := Heap.duplicate_eq_ok hdup
        have hcopy : b.world.heap.object (w.heap.allocate (.array elem values)).1 =
            .array elem values := by
          rw [hb.world.heap, Heap.object_allocate]
          exact if_pos rfl
        simp only [Action.wp_bind, wp_fromHeap, Heap.length_of_array hcopy]
        refine (setSource_silent _ _ _ _ _ b).mono (fun _ b' hb' => ?_) fun _ _ h => h.elim
        exact ⟨_, rfl, hb.world.trans hb'.world, hb'.locals.trans hb.locals,
          congrArg (Value.ref _ :: ·) (hb'.stack.trans hb.stack)⟩

/-- **A comparison in the sense of strings.** -/
theorem wp_stringEquals (x y : Value) :
    Wp (hook inUse .stringEquals)
      (fun _ b => ∃ same, w.heap.stringEquals x y = .ok same ∧ Left w L [.ofBool same] S b)
      (fun e b => w.heap.stringEquals x y = .error e ∧ w.Follows b.world) ⟨w, L, y :: x :: S⟩ := by
  unfold hook take
  simp only [Action.wp_bind, wp_pop_cons, wp_fromHeap, wp_push]
  cases w.heap.stringEquals x y with
  | error e => exact ⟨rfl, .refl w⟩
  | ok same => exact ⟨same, rfl, .refl w, rfl, rfl⟩

/-- The text of masked operands is found without fail. -/
theorem joinTracked_silent :
    ∀ (operands : List (Ty × Value)) (marks : List Char) (points : List Value) (start : Nat),
    (∀ p ∈ points, ∃ point, p = .ofPoint point) →
    Silent (joinTracked inUse start operands marks points)
  | [], _, _, _, _ => silent_pure _
  | _ :: _, [], _, _, _ => silent_pure _
  | (t, v) :: operands, mark :: marks, points, start, hpoints => by
    have hrest (world : World) (source : Option TextSource) {points : List Value}
        (hpoints : ∀ p ∈ points, ∃ point, p = .ofPoint point) :
        Silent (do
          let rest ← joinTracked inUse (start + (world.render t v).toList.length)
            operands marks points
          return ((world.render t v).toList ++ rest.1, source.toList ++ rest.2)) :=
      (joinTracked_silent operands marks points _ hpoints).bind fun _ => silent_pure _
    unfold joinTracked
    have hinspect : Silent (Action.inspect fun b => .ok b.world) := fun _ => ⟨.refl _, rfl, rfl⟩
    refine hinspect.bind fun world => ?_
    by_cases hmark : mark = 'T'
    · simp only [hmark, if_true]
      cases points with
      | nil =>
        rw [pure_bind]
        exact hrest world _ (by simp)
      | cons p points =>
        obtain ⟨⟨point, rfl⟩, hothers⟩ := List.forall_mem_cons.mp hpoints
        have hpoint : Silent (fromHeap fun h => h.point (.ofPoint point)) := by
          intro b
          rw [wp_fromHeap, point_ofPoint]
          exact ⟨.refl _, rfl, rfl⟩
        simp only [pure_bind]
        exact hpoint.bind fun _ => hrest world _ hothers
    · simp only [hmark, if_false]
      cases v.object? with
      | none =>
        rw [pure_bind]
        exact hrest world _ hpoints
      | some o =>
        simp only [pure_bind]
        exact (trackerOf_silent o).bind fun _ => hrest world _ hpoints

/-- **A concatenation with points** leaves a new string. -/
theorem wp_concatWithPoints {args : List Ty} {mask : String} {points values : List Value}
    (hcount : points.length = markedCount mask) (hlen : values.length = args.length)
    (hpoints : ∀ p ∈ points, ∃ point, p = .ofPoint point) {E : RunError → Bench → Prop} :
    Wp (hook inUse (.concatWithPoints args mask))
      (fun _ b => ∃ text, Left { w with heap := (w.heap.allocate (.string text)).2 } L
        [.ref (w.heap.allocate (.string text)).1] S b) E ⟨w, L, points ++ (values ++ S)⟩ := by
  unfold hook concatenate concatenateBy
  rw [Action.wp_bind, wp_popMany, if_neg (by simp only [List.length_append]; omega), Action.wp_bind,
    wp_popMany, if_neg (by simp only [← hcount, List.drop_left, List.length_append]; omega)]
  simp only [← hcount, ← hlen, List.drop_left, List.take_left, Action.wp_bind]
  refine (joinTracked_silent _ _ _ _ (fun p hp => hpoints p (List.mem_reverse.mp hp)) _).mono
    (fun joined b hb => ?_) fun _ _ h => h.elim
  unfold allocate
  rw [Action.wp_bind, wp_onHeap, Action.wp_bind, hb.world.heap]
  refine (recordSources_silent _ _ _).mono (fun _ b' hb' => ?_) fun _ _ h => h.elim
  refine ⟨joined.1.toArray, ⟨hb'.world.heap, ?_, ?_⟩, hb'.locals.trans hb.locals, ?_⟩
  · exact hb'.world.literals.trans hb.world.literals
  · exact hb.world.store.trans hb'.world.store
  · exact congrArg (Value.ref _ :: ·) (hb'.stack.trans hb.stack)

/-- **A string literal's own instance** leaves a copy of the string that it is. -/
theorem wp_constantString_copies (classId offset : Nat) (o : ObjectId)
    {E : RunError → Bench → Prop} :
    Wp (hook inUse (.constantString classId offset))
      (fun _ b => ∃ x, Left { w with heap :=
        (w.heap.allocate x).2 } L [.ref (w.heap.allocate x).1] S b)
      E ⟨w, L, .ref o :: S⟩ := by
  unfold hook take copyLiteral copyLiteralBy allocate
  simp only [Action.wp_bind, wp_pop_cons, wp_fromHeap, Heap.reference, wp_onHeap, wp_onStore]
  cases w.store.table classId with
  | error e => exact ⟨_, ⟨rfl, rfl, .refl _⟩, rfl, rfl⟩
  | ok table =>
    simp only [Action.wp_bind]
    refine (literalSource_silent _ _ _ _ _).mono (fun _ b h => ?_) fun _ _ h => h.elim
    exact ⟨_, h.world, h.locals, congrArg (Value.ref _ :: ·) h.stack⟩

/-! ## 4. All hooks -/

/-- A bench on which a hook has left its results. -/
def Served (h : Hook) (L : Array Value) (S : List Value) (b : Bench) : Prop :=
  b.locals = L ∧ ∃ results, List.Forall₂ OperandKind.Admits h.results results ∧
  b.stack = results ++ S

variable {h : Hook} {w' : World} {b : Bench}

theorem Left.served {results : List Value} (hb : Left w' L results S b)
    (hresults : List.Forall₂ OperandKind.Admits h.results results) : Served h L S b :=
  ⟨hb.locals, results, hresults, hb.stack⟩

/-- A hook that leaves one value. -/
theorem Left.served_one {k : OperandKind} {x : Value} (hb : Left w' L [x] S b)
    (hh : h.results = [k]) (hx : k.Admits x) : Served h L S b :=
  hb.served (hh ▸ .cons hx .nil)

theorem LeftPoint.served (hb : LeftPoint w L S b) (hh : h.results = [.point]) : Served h L S b :=
  let ⟨point, hleft⟩ := hb
  hleft.served_one hh ⟨point, rfl⟩

theorem LeftRecord.served (hb : LeftRecord w L S b) (hh : h.results = [.record]) : Served h L S b :=
  let ⟨record, hleft⟩ := hb
  hleft.served_one hh ⟨record, rfl⟩

/-- A reference is one. -/
theorem reference_ne_error {v : Value} (hv : OperandKind.reference.Admits v) {heap : Heap}
    {e : RunError} : heap.reference v ≠ .error e := by
  rcases hv with rfl | ⟨o, rfl⟩ <;> simp [Heap.reference]

theorem stringEquals_ne_error {x y : Value} (hx : OperandKind.reference.Admits x)
    (hy : OperandKind.reference.Admits y) {heap : Heap} {e : RunError} :
    heap.stringEquals x y ≠ .error e := by
  unfold Heap.stringEquals
  rcases hx with rfl | ⟨o, rfl⟩ <;> rcases hy with rfl | ⟨o', rfl⟩ <;> simp [Heap.reference]

theorem admits_of_replicate {k : OperandKind} : ∀ {n : Nat} {values : List Value},
    List.Forall₂ OperandKind.Admits (List.replicate n k) values → ∀ v ∈ values, k.Admits v
  | 0, _, .nil => by simp
  | _ + 1, _, .cons hv hvalues => List.forall_mem_cons.mpr ⟨hv, admits_of_replicate hvalues⟩

/-- The operands of a concatenation are points and then the values. -/
theorem concat_operands {args : List Ty} {mask : String} {operands : List Value}
    (h : List.Forall₂ OperandKind.Admits (Hook.concatWithPoints args mask).operands operands) :
    ∃ points values, operands = points ++ values ∧ points.length = markedCount mask ∧
      values.length = args.length ∧ ∀ p ∈ points, ∃ point, p = .ofPoint point := by
  have hlen : operands.length = markedCount mask + args.length := by
    rw [← h.length_eq]
    simp [Hook.operands]
  have hpoints := List.forall₂_take (markedCount mask) h
  unfold Hook.operands at hpoints
  rw [List.take_left' List.length_replicate] at hpoints
  refine ⟨operands.take (markedCount mask), operands.drop (markedCount mask),
    (List.take_append_drop _ _).symm, ?_, ?_, admits_of_replicate hpoints⟩
  · rw [List.length_take]
    omega
  · rw [List.length_drop]
    omega

/-- **A hook on operands that it expects** serves, if its effect succeeds. -/
theorem wp_served (h : Hook) {operands : List Value}
    (hkinds : List.Forall₂ OperandKind.Admits h.operands operands)
    (heffect : h.EffectSucceeds w operands) :
    Wp (hook inUse h) (fun _ => Served h L S) (fun _ _ => False) ⟨w, L, operands ++ S⟩ := by
  cases h with
  | constantPoint c =>
    obtain _ | _ := hkinds
    exact (wp_constantPoint c).mono (fun _ _ hb => hb.served rfl) fun _ _ he => he
  | elementPoint =>
    obtain _ | ⟨⟨n, rfl⟩, _ | ⟨hv, _ | _⟩⟩ := hkinds
    refine (wp_elementPoint (.int n) _ (fun _ _ he => ?_) fun _ _ _ _ he => ?_).mono
      (fun _ _ hb => hb.served rfl) fun _ _ he => he
    · simp [Heap.int] at he
    · exact absurd he (reference_ne_error hv)
  | arrayStoreWithPoint elem =>
    obtain _ | ⟨⟨point, rfl⟩, _ | ⟨-, _ | ⟨-, _ | ⟨-, _ | _⟩⟩⟩⟩ := hkinds
    obtain ⟨heap, hheap⟩ := Heap.storeAt_of_effect heffect
    refine (wp_arrayStoreWithPoint elem point _ _ _).mono (fun _ b hb => ?_) fun e _ he => ?_
    · obtain ⟨heap, -, hb⟩ := hb
      exact hb.served .nil
    · rw [hheap] at he
      cases he.1
  | fieldPoint key =>
    obtain _ | ⟨hv, _ | _⟩ := hkinds
    exact (wp_fieldPoint key _ fun _ _ he => absurd he (reference_ne_error hv)).mono
      (fun _ _ hb => hb.served rfl) fun _ _ he => he
  | setFieldPoint key =>
    obtain _ | ⟨⟨point, rfl⟩, _ | ⟨hv, _ | _⟩⟩ := hkinds
    exact (wp_setFieldPoint key point _ fun _ _ he => absurd he (reference_ne_error hv)).mono
      (fun _ _ hb => hb.served .nil) fun _ _ he => he
  | invocationCreate signature =>
    obtain _ | _ := hkinds
    exact (wp_invocationCreate signature).mono (fun _ _ hb => hb.served rfl) fun _ _ he => he
  | invocationSetArg slot =>
    obtain _ | ⟨⟨point, rfl⟩, _ | ⟨⟨record, rfl⟩, _ | _⟩⟩ := hkinds
    exact (wp_invocationSetArg slot point record).mono
      (fun _ _ hb => hb.served_one rfl ⟨record, rfl⟩) fun _ _ he => he
  | invocationCalling =>
    obtain _ | ⟨⟨record, rfl⟩, _ | _⟩ := hkinds
    exact (wp_invocationCalling record).mono
      (fun _ _ hb => hb.served_one rfl ⟨record, rfl⟩) fun _ _ he => he
  | invocationStart signature =>
    obtain _ | _ := hkinds
    exact (wp_invocationStart signature).mono (fun _ _ hb => hb.served rfl) fun _ _ he => he
  | invocationArgPoint slot =>
    obtain _ | ⟨⟨record, rfl⟩, _ | _⟩ := hkinds
    exact (wp_invocationArgPoint slot record).mono (fun _ _ hb => hb.served rfl) fun _ _ he => he
  | invocationReturnPoint =>
    obtain _ | ⟨⟨record, rfl⟩, _ | _⟩ := hkinds
    exact (wp_invocationReturnPoint record).mono (fun _ _ hb => hb.served rfl) fun _ _ he => he
  | invocationReturning =>
    obtain _ | ⟨⟨point, rfl⟩, _ | ⟨⟨record, rfl⟩, _ | _⟩⟩ := hkinds
    exact (wp_invocationReturning point record).mono (fun _ _ hb => hb.served .nil) fun _ _ he => he
  | stringEquals =>
    obtain _ | ⟨hy, _ | ⟨hx, _ | _⟩⟩ := hkinds
    refine (wp_stringEquals _ _).mono (fun _ b hb => ?_) fun e _ he => ?_
    · obtain ⟨same, -, hb⟩ := hb
      exact hb.served_one (k := .int) rfl ⟨_, rfl⟩
    · exact absurd he.1 (stringEquals_ne_error hx hy)
  | concatWithPoints args mask =>
    obtain ⟨points, values, rfl, hcount, hlen, hpoints⟩ := concat_operands hkinds
    rw [List.append_assoc]
    refine (wp_concatWithPoints hcount hlen hpoints).mono (fun _ b hb => ?_) fun _ _ he => he
    obtain ⟨text, hb⟩ := hb
    exact hb.served_one (k := .reference) rfl (.inr ⟨_, rfl⟩)
  | constantString classId offset =>
    obtain _ | ⟨rfl | ⟨o, rfl⟩, _ | _⟩ := hkinds
    · have hnull : Left w L [.null] S ⟨w, L, .null :: S⟩ := ⟨.refl w, rfl, rfl⟩
      exact hnull.served_one (k := .reference) rfl (.inl rfl)
    · refine (wp_constantString_copies classId offset o).mono (fun _ b hb => ?_) fun _ _ he => he
      obtain ⟨x, hb⟩ := hb
      exact hb.served_one (k := .reference) rfl (.inr ⟨_, rfl⟩)
  | arrayCopy =>
    obtain _ | ⟨-, _ | ⟨-, _ | ⟨-, _ | ⟨-, _ | ⟨-, _ | _⟩⟩⟩⟩⟩ := hkinds
    obtain ⟨heap, hheap⟩ := Heap.copyAt_of_effect heffect
    refine (wp_arrayCopy _ _ _ _ _).mono (fun _ b hb => ?_) fun e _ he => ?_
    · obtain ⟨heap, -, hb⟩ := hb
      exact hb.served .nil
    · rw [hheap] at he
      cases he.1
  | arrayClone =>
    obtain _ | ⟨-, _ | _⟩ := hkinds
    obtain ⟨x, hx⟩ := Heap.cloneAt_of_effect heffect
    refine (wp_arrayClone _).mono (fun _ b hb => ?_) fun e _ he => ?_
    · obtain ⟨x, -, hb⟩ := hb
      exact hb.served_one (k := .reference) rfl (.inr ⟨_, rfl⟩)
    · rw [hx] at he
      cases he.1

end Work

/-- A world with an array that has an origin for its tracker, which takes no sources. -/
def refusingWorld : World :=
  let (o, w) := (World.empty .default).allocate (.newArray .char 2)
  let (id, store) := w.store.addTracker (.new .origin [] none)
  { w with store := store.setTracker (fun _ => true) o id }

/-- A place in that array, a character for it, and a point. -/
def refusedOperands : List Value := [.point ⟨1, 0, 1⟩, .int 65, .int 1, .ref 1]

/-- A world with an array, a table of literals, and a tracker that has its first byte from the
table. -/
def recordedWorld : World :=
  let (_, w) := (World.empty .default).allocate (.newArray .char 2)
  { w with store :=
    { w.store with
      ledger := ⟨⟨#[some (.new .origin [65] none),
        some { Tracker.new .default [] none with parts := [⟨0, 1, 1, 0⟩] }]⟩, .empty⟩
      tables := [⟨"demo/A", 1⟩] } }

/-- A place in the array, a character for it, and a point at the last index of all. -/
def lastOperands : List Value := [.point ⟨2, Numeral.wordBound - 1, 1⟩, .int 65, .int 1, .ref 1]

end Provenance
