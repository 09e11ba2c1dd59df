/-
# Hooks that stand for instructions

Four hooks stand in place of an instruction of the program: the store into an array, the
concatenation, and the bulk copy and the clone of an array, which the program makes by calls of
natives.  Each does what the instruction does and besides that only tells the store about it.
-/
import Provenance.Proofs.HookEffects
import Provenance.Proofs.Performing

namespace Provenance

namespace Work

open Provenance.Action (Wp)
open Provenance.Action.Matched

variable {known : Nat → Prop} {n : Nat} {extra : List Value} {inUse inUse' : Thunk (List Value)}

/-! ## 1. What the store is told makes no difference -/

/-- Benches that are alike stay so when only the store of the second changes. -/
theorem alike_of_left {b b' b'' : Bench} (h : Bench.Alike known n extra b b')
    (hb : Left b'.world b'.locals [] b'.stack b'') : Bench.Alike known n extra b b'' :=
  ⟨h.world.follows hb.world, hb.locals ▸ h.locals, h.size, hb.stack.trans h.stack, h.localsWithin,
    h.stackWithin⟩

theorem Silent.matched {α β : Type} {P : β → Prop} {x : Work β} {y : Work α} {x' : α → Work β}
    (hy : Silent y) (hx : ∀ a, Matched known n extra P x (x' a)) :
    Matched known n extra P x (y >>= x') := by
  intro b b' h
  rw [Action.outcome_bind]
  have hwp := hy b'
  unfold Wp at hwp
  rcases hout : y.outcome b' with ⟨r, b₁⟩
  rw [hout] at hwp
  cases r with
  | ok a => exact hx a b b₁ (alike_of_left h hwp)
  | error e => exact hwp.elim

/-! ## 2. Stores into arrays -/

/-- **A store with a point is a store.** -/
theorem arrayStore_matched (method method' : String) {u : RunError} (u' : RunError)
    (inUse inUse' : Thunk (List Value)) (hu : hookUnderflow.kind = u.kind) (t : Ty)
    (point : Option Point) {b b' : Bench} (h : Bench.Alike known n extra b b') :
    Agreed (Bench.Alike known n extra) (fun t => t = .next)
      ((perform method u inUse (.arrayStore t)).outcome b)
      ((perform method' u' inUse' (.hook (.arrayStoreWithPoint t))).outcome
        { b' with stack := .ofPoint point :: b'.stack }) := by
  have hmatched : Matched known n extra (fun t => t = .next)
      (perform method u inUse (.arrayStore t)) (do
        let value ← take
        let index ← popInt hookUnderflow
        let array ← popTarget hookUnderflow "array store"
        storeElement array index value
        let _ ← setSource inUse' array index.toInt.toNat 1 (point.map Point.tracker)
          ((point.map Point.index).getD 0)
        return .next) := by
    refine bind (pop_matched hu) fun v hv => bind (popInt_matched hu) fun index _ => ?_
    refine bind (popTarget_matched hu _) fun o _ => bind (storeElement_matched hv) fun _ _ => ?_
    exact (setSource_silent o _ _ _ _).matched fun _ => pure rfl
  have hsame : (perform method' u' inUse' (.hook (.arrayStoreWithPoint t))).outcome
      { b' with stack := .ofPoint point :: b'.stack } = (do
        let value ← take
        let index ← popInt hookUnderflow
        let array ← popTarget hookUnderflow "array store"
        storeElement array index value
        let _ ← setSource inUse' array index.toInt.toNat 1 (point.map Point.tracker)
          ((point.map Point.index).getD 0)
        return .next : Work Transfer).outcome b' := by
    cases point <;> simp only [perform, hook, storeWithPoint, storeWithPointBy, bind_assoc] <;> rfl
  rw [hsame]
  exact hmatched b b' h

/-! ## 3. Concatenations -/

/-- Texts put together are their characters put together. -/
theorem toList_intercalate_empty : ∀ texts : List String,
    ("".intercalate texts).toList = texts.flatMap String.toList
  | [] => by simp
  | [t] => by simp
  | t :: u :: rest => by
    rw [String.intercalate_cons_cons, List.flatMap_cons, ← toList_intercalate_empty (u :: rest)]
    simp

/-- The text of masked operands is the text of the operands. -/
theorem wp_joinTracked (inUse : Thunk (List Value)) {w : World} : ∀ {operands : List (Ty × Value)}
    {marks : List Char} {points : List Value} (start : Nat) {b : Bench},
      World.Same known w b.world →
    operands.length ≤ marks.length → (∀ e ∈ operands, e.2.Within known) →
    (∀ p ∈ points, ∃ point, p = .ofPoint point) →
    Wp (joinTracked inUse start operands marks points)
      (fun r b' => r.1 = operands.flatMap (fun e => (w.render e.1 e.2).toList) ∧
        Left b.world b.locals [] b.stack b') (fun _ _ => False) b := by
  intro operands
  induction operands with
  | nil =>
    intro marks points start b _ _ _ _
    unfold joinTracked
    exact ⟨rfl, .refl _, rfl, rfl⟩
  | cons e operands ih =>
    intro marks points start b hsame hlen hvalues hpoints
    obtain ⟨t, v⟩ := e
    obtain ⟨hv, hvalues⟩ := List.forall_mem_cons.mp hvalues
    cases marks with
    | nil => simp at hlen
    | cons mark marks =>
      have hlen' : operands.length ≤ marks.length := by simpa using hlen
      -- the rest, from the bench that finding the source of this operand left
      have hrest : ∀ (points : List Value) (b' : Bench),
          Left b.world b.locals [] b.stack b' → (∀ p ∈ points, ∃ point, p = .ofPoint point) →
          Wp (joinTracked inUse (start + (b.world.render t v).toList.length) operands marks points)
            (fun r b' => (b.world.render t v).toList ++ r.1 =
                ((t, v) :: operands).flatMap (fun e => (w.render e.1 e.2).toList) ∧
              Left b.world b.locals [] b.stack b') (fun _ _ => False) b' := by
        intro points b' hb hpoints
        refine (ih _ (hsame.follows hb.world) hlen' hvalues hpoints).mono (fun r b'' hr => ?_)
          fun _ _ h => h
        obtain ⟨htext, hb'⟩ := hr
        refine ⟨?_, hb.world.trans hb'.world, hb'.locals.trans hb.locals, hb'.stack.trans hb.stack⟩
        simp only [List.flatMap_cons, htext, hsame.render t hv]
      unfold joinTracked
      rw [Action.wp_bind, Action.wp_inspect]
      by_cases hmark : mark = 'T'
      · simp only [hmark, if_true]
        cases points with
        | nil =>
          simp only [Action.wp_bind, Action.wp_pure]
          exact hrest [] b ⟨.refl _, rfl, rfl⟩ (by simp)
        | cons p points =>
          obtain ⟨⟨point, hp⟩, hrests⟩ := List.forall_mem_cons.mp hpoints
          simp only [hp, Action.wp_bind, wp_fromHeap, point_ofPoint, Action.wp_pure]
          exact hrest points b ⟨.refl _, rfl, rfl⟩ hrests
      · simp only [hmark, if_false]
        cases v.object? with
        | none =>
          simp only [Action.wp_bind, Action.wp_pure]
          exact hrest points b ⟨.refl _, rfl, rfl⟩ hpoints
        | some o =>
          rw [Action.wp_bind]
          refine (trackerOf_silent o b).mono (fun tracker b' hb => ?_) fun _ _ h => h
          simp only [Action.wp_bind, Action.wp_pure]
          exact hrest points b' hb hpoints

/-- **A concatenation with points is a concatenation.** -/
theorem concat_matched (method method' : String) {u : RunError} (u' : RunError)
    (inUse inUse' : Thunk (List Value)) (hu : hookUnderflow.kind = u.kind) {args : List Ty}
    {mask : List Char} (hmask : args.length ≤ mask.length) {points : List Value}
    (hcount : points.length = mask.count 'T') (hpoints : ∀ p ∈ points, ∃ point, p = .ofPoint point)
    {b b' : Bench} (h : Bench.Alike known n extra b b') :
    Agreed (Bench.Alike known n extra) (fun t => t = .next)
      ((perform method u inUse (.concat args)).outcome b)
      ((perform method' u' inUse' (.hook (.concatWithPoints args (String.ofList mask)))).outcome
        { b' with stack := points.reverse ++ b'.stack }) := by
  have hmatched : Matched known n extra (fun t => t = .next)
      (perform method u inUse (.concat args)) (do
        let values ← popMany hookUnderflow args.length
        push (← concatenate inUse' args (String.ofList mask) values points)
        return .next) := by
    refine bind (popMany_matched hu _) fun values hvalues => ?_
    intro b b' h
    have hoperands : ∀ e ∈ args.zip values, e.2.Within known :=
      fun e he => hvalues e.2 (List.of_mem_zip he).2
    have hlen : (args.zip values).length ≤ mask.length := by
      rw [List.length_zip]
      omega
    have hjoin := wp_joinTracked inUse' 0 h.world hlen hoperands hpoints
    have hplain : ∀ f : String → Work Transfer, (concatText args values >>= f).outcome b =
        (f ("".intercalate ((args.zip values).map fun e => b.world.render e.1 e.2))).outcome b :=
      fun f => Action.outcome_bind _ f b
    unfold Wp at hjoin
    rcases hout : (joinTracked inUse' 0 (args.zip values) mask points).outcome b' with ⟨r, b₁⟩
    rw [hout] at hjoin
    cases r with
    | error e => exact hjoin.elim
    | ok r =>
      obtain ⟨text, sources⟩ := r
      obtain ⟨htext, hb₁⟩ := hjoin
      have hwoven : ∀ f : List Char × List TextSource → Work Transfer,
          (joinTracked inUse' 0 (args.zip values) mask points >>= f).outcome b' =
            (f (text, sources)).outcome b₁ := by
        intro f
        rw [Action.outcome_bind, hout]
      -- both allocate the same string
      have hstring : HeapObject.string text.toArray = .ofText
          ("".intercalate ((args.zip values).map fun e => b.world.render e.1 e.2)) := by
        unfold HeapObject.ofText
        rw [toList_intercalate_empty, List.flatMap_map]
        exact congrArg (fun cs : List Char => HeapObject.string cs.toArray) htext
      rw [hplain]
      simp only [concatenate, concatenateBy, bind_assoc, String.toList_ofList]
      rw [hwoven, hstring]
      refine bind (allocate_matched (HeapObject.within_ofText _)) (fun o _ => ?_) b b₁
        (alike_of_left h hb₁)
      exact (recordSources_silent o sources).matched fun _ =>
        bind (push_matched (Value.within_ref o)) fun _ _ =>
          pure (P := fun t => t = Transfer.next) rfl
  have hsame :
      (perform method' u' inUse' (.hook (.concatWithPoints args (String.ofList mask)))).outcome
      { b' with stack := points.reverse ++ b'.stack } = (do
        let values ← popMany hookUnderflow args.length
        push (← concatenate inUse' args (String.ofList mask) values points)
        return .next : Work Transfer).outcome b' := by
    have hcount' : markedCount (String.ofList mask) = points.length := by
      simp [markedCount, hcount]
    have htake : (popMany hookUnderflow (markedCount (String.ofList mask))).outcome
        { b' with stack := points.reverse ++ b'.stack } = (.ok points, b') := by
      unfold Action.outcome popMany
      simp [hcount']
    simp only [perform, hook, bind_assoc]
    rw [Action.outcome_bind, htake]
  rw [hsame]
  exact hmatched b b' h

/-! ## 4. Copies of arrays -/

/-- The context only goes into the text of the error. -/
theorem target_cases (h : Heap) (context context' : String) (v : Value) :
    (∃ o, h.target context v = .ok o ∧ h.target context' v = .ok o) ∨
      ∃ e e', h.target context v = .error e ∧ h.target context' v = .error e' ∧
        e'.kind = e.kind := by
  unfold Heap.target
  cases h.reference v with
  | error e => exact Or.inr ⟨e, e, rfl, rfl, rfl⟩
  | ok o? =>
    cases o? with
    | none => exact Or.inr ⟨_, _, rfl, rfl, rfl⟩
    | some o => exact Or.inl ⟨o, rfl, rfl⟩

/-- A hook does what a native does: the same to the heap, with a result that goes with that of the
native, or it fails in the same kind of way. -/
def Mimics {α : Type} (known : Nat → Prop) (R : Option Value → α → Prop)
    (body : Action World (Option Value)) (x : Work α) : Prop :=
  ∀ w b, World.Same known w b.world → Wp body
    (fun v w => Wp x (fun a b' => R v a ∧ World.Same known w b'.world ∧ b'.locals = b.locals ∧
      b'.stack = b.stack) (fun _ _ => False) b)
    (fun e w => Wp x (fun _ _ => False)
      (fun e' b' => e'.kind = e.kind ∧ World.Same known w b'.world) b) w

/-- **The bulk copy with provenance is the bulk copy.** -/
theorem copyArray_mimics {key : String} {record : Option Nat} {args : List Value}
    (hlen : args.length = 5) :
    Mimics known (fun v _ => v = none) (Native.arrayCopy ⟨key, args, record⟩)
      (copyArray inUse args) := by
  intro w b h
  match args, hlen with
  | [source, position, target, targetPosition, length], _ =>
    simp only [Native.arrayCopy, NativeCall.target, NativeCall.int, NativeCall.arg,
      copyArray, copyArrayBy, changeHeap, Action.wp_bind, Action.wp_inspect, Action.wp_update,
      Action.wp_pure, wp_fromHeap, wp_onHeap, List.getElem?_cons_zero,
      List.getElem?_cons_succ, h.heap]
    rcases target_cases w.heap key "arraycopy source"
      source with ⟨o, ho, ho'⟩ | ⟨e, e', he, he', hk⟩
    case inr =>
      simp only [he, he']
      exact ⟨hk, h⟩
    simp only [ho, ho']
    rcases target_cases w.heap key "arraycopy target"
      target with ⟨t, ht, ht'⟩ | ⟨e, e', he, he', hk⟩
    case inr =>
      simp only [he, he']
      exact ⟨hk, h⟩
    simp only [ht, ht']
    cases hp : w.heap.int position with
    | error e => exact ⟨rfl, h⟩
    | ok p =>
      cases hq : w.heap.int targetPosition with
      | error e => exact ⟨rfl, h⟩
      | ok q =>
        cases hn : w.heap.int length with
        | error e => exact ⟨rfl, h⟩
        | ok n =>
          simp only
          cases hcopy : w.heap.copyRange o p t q n with
          | error e => exact ⟨rfl, h⟩
          | ok heap =>
            simp only
            have hsame : World.Same known { w with heap } { b.world with heap } :=
              h.withHeap (h.within.copyRange hcopy)
            refine (trackerOf_silent o _).mono (fun tracker b₁ hb₁ => ?_) fun _ _ h => h
            rw [Action.wp_bind]
            refine (setSource_silent t _ _ _ _ b₁).mono (fun _ b₂ hb₂ => ?_) fun _ _ h => h
            refine ⟨trivial, (hsame.follows hb₁.world).follows hb₂.world, ?_, ?_⟩
            · exact hb₂.locals.trans hb₁.locals
            · exact hb₂.stack.trans hb₁.stack

/-- **The clone with provenance is the clone.** -/
theorem cloneArray_mimics {key : String} {record : Option Nat} (v : Value) :
    Mimics known (fun result copy => result = some copy ∧ copy.Within known)
      (Native.clone ⟨key, [v], record⟩) (cloneArray inUse v) := by
  intro w b h
  simp only [Native.clone, NativeCall.target, NativeCall.arg, cloneArray, cloneArrayBy, allocate,
    World.allocate, Action.wp_bind, Action.wp_inspect, Action.wp_update, Action.wp_pure,
    wp_fromHeap, wp_onHeap, List.getElem?_cons_zero, h.heap]
  rcases target_cases w.heap key "clone" v with ⟨o, ho, ho'⟩ | ⟨e, e', he, he', hk⟩
  case inr =>
    simp only [he, he']
    exact ⟨hk, h⟩
  simp only [ho, ho']
  cases hdup : w.heap.duplicate o with
  | error e => exact ⟨rfl, h⟩
  | ok x =>
    simp only
    have hsame : World.Same known { w with heap := (w.heap.allocate x).2 }
        { b.world with heap := (w.heap.allocate x).2 } :=
      h.withHeap (h.within.allocate (h.within.duplicate hdup))
    refine (trackerOf_silent o _).mono (fun tracker b₁ hb₁ => ?_) fun _ _ h => h
    cases tracker with
    | none => exact ⟨⟨rfl, trivial⟩, hsame.follows hb₁.world, hb₁.locals, hb₁.stack⟩
    | some tracker =>
      have hlength : ∃ n, b₁.world.heap.length (w.heap.allocate x).1 = .ok n := by
        have hobject : (w.heap.allocate x).2.object (w.heap.allocate x).1 = x :=
          (Heap.object_allocate w.heap x _).trans (if_pos rfl)
        rw [hb₁.world.heap]
        simp only [Heap.length, hobject]
        unfold Heap.duplicate at hdup
        split at hdup
        · rw [← Except.ok.inj hdup]
          exact ⟨_, rfl⟩
        · exact absurd hdup (by simp [Heap.wrongKind])
      obtain ⟨n, hn⟩ := hlength
      simp only [Action.wp_bind, wp_fromHeap, hn]
      refine (setSource_silent _ _ _ _ _ b₁).mono (fun _ b₂ hb₂ => ?_) fun _ _ h => h
      refine ⟨⟨rfl, trivial⟩, (hsame.follows hb₁.world).follows hb₂.world, ?_, ?_⟩
      · exact hb₂.locals.trans hb₁.locals
      · exact hb₂.stack.trans hb₁.stack

end Work

end Provenance
