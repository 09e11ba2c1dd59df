/-
# Failing in exactly the same way

Two runs of the same code see the same heap and have the same operands; what they know of origins
differs, and so do the locals in which woven code keeps points and records.  An instruction of the
program looks at none of that, so it fails in one of them as it fails in the other, in the same
words (`Work.perform_fails_alike`), and so does a built-in native (`Native.builtIn_likewise`).
-/
import Provenance.Proofs.Performing
import Provenance.Proofs.StraightLine

namespace Provenance

open Provenance.Action (Wp)

/-! ## 1. Actions that come to exactly the same -/

namespace Action

variable {σ α β : Type} {R : σ → σ → Prop}

/-- Two actions that, from related states, come to the same result or the same failure and leave
related states. -/
def Likewise (R : σ → σ → Prop) (x x' : Action σ α) : Prop :=
  ∀ s s', R s s' → (x'.outcome s').1 = (x.outcome s).1 ∧ R (x.outcome s).2 (x'.outcome s').2

namespace Likewise

theorem pure (a : α) : Likewise R (Pure.pure a) (Pure.pure a) := fun _ _ h => ⟨rfl, h⟩

theorem throw (e : RunError) :
    Likewise R (MonadExcept.throw e : Action σ α) (MonadExcept.throw e) :=
  fun _ _ h => ⟨rfl, h⟩

theorem bind {x x' : Action σ α} {f f' : α → Action σ β} (hx : Likewise R x x')
    (hf : ∀ a, Likewise R (f a) (f' a)) : Likewise R (x >>= f) (x' >>= f') := by
  intro s s' h
  obtain ⟨hsame, hr⟩ := hx s s' h
  rw [outcome_bind, outcome_bind]
  generalize x.outcome s = r at hsame hr
  generalize x'.outcome s' = r' at hsame hr
  obtain ⟨r, t⟩ := r
  obtain ⟨r', t'⟩ := r'
  obtain rfl : r' = r := hsame
  cases r' with
  | ok a => exact hf a t t' hr
  | error e => exact ⟨rfl, hr⟩

theorem inspect {f f' : σ → Except RunError α} (hf : ∀ s s', R s s' → f' s' = f s) :
    Likewise R (Action.inspect f) (Action.inspect f') := fun s s' h => ⟨hf s s' h, h⟩

theorem update {f f' : σ → α × σ}
    (hf : ∀ s s', R s s' → (f' s').1 = (f s).1 ∧ R (f s).2 (f' s').2) :
    Likewise R (Action.update f) (Action.update f') :=
  fun s s' h => ⟨congrArg Except.ok (hf s s' h).1, (hf s s' h).2⟩

end Likewise

end Action

open Provenance.Action.Likewise

/-! ## 2. Instructions -/

/-- Two benches with the same heap, the same literals and the same operands. -/
structure Bench.SameView (b b' : Bench) : Prop where
  heap : b'.world.heap = b.world.heap
  literals : b'.world.literals = b.world.literals
  stack : b'.stack = b.stack

namespace Work

variable {α : Type}

abbrev Likewise (x x' : Work α) : Prop := Action.Likewise Bench.SameView x x'

theorem push_likewise (v : Value) : Likewise (push v) (push v) :=
  update fun _ _ h => ⟨rfl, h.heap, h.literals, congrArg (v :: ·) h.stack⟩

theorem pop_likewise (u : RunError) : Likewise (pop u) (pop u) := by
  intro b b' h
  unfold Action.outcome pop
  rw [h.stack]
  cases b.stack with
  | nil => exact ⟨rfl, h⟩
  | cons v rest => exact ⟨rfl, h.heap, h.literals, rfl⟩

theorem popMany_likewise (u : RunError) (n : Nat) : Likewise (popMany u n) (popMany u n) := by
  intro b b' h
  unfold Action.outcome popMany
  rw [h.stack]
  split
  · exact ⟨rfl, h⟩
  · exact ⟨rfl, h.heap, h.literals, rfl⟩

theorem fromHeap_likewise (f : Heap → Except RunError α) : Likewise (fromHeap f) (fromHeap f) :=
  inspect fun _ _ h => congrArg f h.heap

theorem onHeap_likewise (f : Heap → α × Heap) : Likewise (onHeap f) (onHeap f) :=
  update fun _ _ h => ⟨congrArg (fun x => (f x).1) h.heap, congrArg (fun x => (f x).2) h.heap,
    h.literals, h.stack⟩

theorem popInt_likewise (u : RunError) : Likewise (popInt u) (popInt u) :=
  bind (pop_likewise u) fun _ => fromHeap_likewise _

theorem popTarget_likewise (u : RunError) (context : String) :
    Likewise (popTarget u context) (popTarget u context) :=
  bind (pop_likewise u) fun _ => fromHeap_likewise _

theorem changeHeap_likewise (f : Heap → Except RunError Heap) :
    Likewise (changeHeap f) (changeHeap f) :=
  bind (fromHeap_likewise f) fun _ => onHeap_likewise _

theorem constant_likewise (c : Constant) : Likewise (constant c) (constant c) := by
  cases c with
  | str text =>
    refine bind (update fun b b' h => ?_) fun _ => pure _
    unfold World.literal World.allocate
    simp only [h.literals, h.heap]
    cases b.world.literals.lookup text with
    | some o => exact ⟨rfl, h⟩
    | none => exact ⟨rfl, rfl, rfl, h.stack⟩
  | _ => exact pure _

/-- An instruction that touches no local and shows no value comes to exactly the same. -/
theorem perform_likewise (method : String) (u : RunError)
    (inUse inUse' : Thunk (List Value)) {i : Insn} (hhook : ∀ h, i ≠ .hook h)
    (hlocal : i.local? = none) (hconcat : ∀ args, i ≠ .concat args) :
    Likewise (perform method u inUse i) (perform method u inUse' i) := by
  have hpush (v : Value) : Likewise (do push v; return Transfer.next) (do push v; return .next) :=
    bind (push_likewise v) fun _ => pure _
  cases i with
  | nop | label _ | goto _ => exact pure _
  | const c => exact bind (constant_likewise c) hpush
  | dup => exact bind (pop_likewise u) fun v => bind (push_likewise v) fun _ => hpush v
  | dupX1 =>
    exact bind (pop_likewise u) fun b => bind (pop_likewise u) fun a =>
      bind (push_likewise b) fun _ =>
      bind (push_likewise a) fun _ => hpush b
  | dup2 =>
    exact bind (pop_likewise u) fun b => bind (pop_likewise u) fun a =>
      bind (push_likewise a) fun _ =>
      bind (push_likewise b) fun _ => bind (push_likewise a) fun _ => hpush b
  | pop => exact bind (pop_likewise u) fun _ => pure _
  | swap =>
    exact bind (pop_likewise u) fun b => bind (pop_likewise u) fun a =>
      bind (push_likewise b) fun _ =>
      hpush a
  | arrayLoad _ =>
    exact bind (popInt_likewise u) fun _ => bind (popTarget_likewise u _) fun _ =>
      bind (fromHeap_likewise _) hpush
  | arrayStore _ =>
    exact bind (pop_likewise u) fun _ => bind (popInt_likewise u) fun _ =>
      bind (popTarget_likewise u _) fun _ =>
        bind (bind (fromHeap_likewise _) fun _ => onHeap_likewise _) fun _ => pure _
  | arrayLength =>
    exact bind (popTarget_likewise u _) fun _ => bind (fromHeap_likewise _) fun _ => hpush _
  | newArray elem =>
    refine bind (popInt_likewise u) fun count => ?_
    split
    · exact throw _
    · exact bind (onHeap_likewise _) fun _ => hpush _
  | getField f => exact bind (popTarget_likewise u _) fun _ => bind (fromHeap_likewise _) hpush
  | putField f =>
    exact bind (pop_likewise u) fun _ => bind (popTarget_likewise u _) fun _ =>
      bind (changeHeap_likewise _) fun _ => pure _
  | binary op t =>
    exact bind (pop_likewise u) fun _ => bind (pop_likewise u) fun _ =>
      bind (fromHeap_likewise _) hpush
  | convert _ _ => exact bind (pop_likewise u) fun _ => bind (fromHeap_likewise _) hpush
  | invoke m => exact bind (popMany_likewise u _) fun _ => pure _
  | ifZero cond l => exact bind (popInt_likewise u) fun _ => pure _
  | ifCmp cond l => exact bind (popInt_likewise u) fun _ => bind (popInt_likewise u) fun _ => pure _
  | ifNull l | ifNonNull l =>
    exact bind (pop_likewise u) fun _ => bind (fromHeap_likewise _) fun _ => pure _
  | ifRefEq l | ifRefNe l =>
    exact bind (pop_likewise u) fun _ => bind (pop_likewise u) fun _ =>
      bind (fromHeap_likewise _) fun _ => pure _
  | ret t =>
    by_cases ht : t = .void
    · simp only [perform, ht, if_true]
      exact pure _
    · simp only [perform, ht, if_false]
      exact bind (pop_likewise u) fun _ => pure _
  | load _ | store _ => cases hlocal
  | concat args => exact absurd rfl (hconcat args)
  | hook h => exact absurd rfl (hhook h)

/-- **An instruction fails in the same words** wherever it sees the same heap and operands. -/
theorem perform_fails_alike {method : String} {u : RunError} {inUse inUse' : Thunk (List Value)}
    {i : Insn} (hhook : ∀ h, i ≠ .hook h) {b b' c c' : Bench} (hview : b.SameView b')
    {e e' : RunError} (h : (perform method u inUse i).outcome b = (.error e, c))
    (h' : (perform method u inUse' i).outcome b' = (.error e', c')) : e' = e := by
  by_cases hplain : i.local? = none ∧ ∀ args, i ≠ .concat args
  · have hsame := (perform_likewise method u inUse inUse' hhook hplain.1 hplain.2 b b' hview).1
    rw [h, h'] at hsame
    exact Except.error.inj hsame
  · -- What is left can fail for want of operands or of the local only.
    have hfails : ∃ r : List Value → RunError, ∀ inUse b,
        Wp (perform method u inUse i) (fun _ _ => True) (fun e _ => e = r b.stack) b := by
      cases i with
      | load l =>
        refine ⟨fun _ => .invalidLocal method l, fun inUse b => ?_⟩
        simp only [perform, Action.wp_bind, wp_loadLocal, wp_push, Action.wp_pure]
        split <;> trivial
      | store l =>
        refine ⟨fun S => if S = [] then u else .invalidLocal method l, fun inUse b => ?_⟩
        simp only [perform, Action.wp_bind, wp_pop, wp_storeLocal, Action.wp_pure]
        obtain ⟨w, L, _ | ⟨v, S⟩⟩ := b
        · rfl
        · simp only
          split <;> trivial
      | concat args =>
        refine ⟨fun _ => u, fun inUse b => ?_⟩
        simp only [perform, concatText, allocate, Action.wp_bind, wp_popMany,
          Action.wp_inspect, wp_onHeap, wp_push, Action.wp_pure]
        split <;> trivial
      | _ => exact absurd ⟨rfl, by simp⟩ hplain
    obtain ⟨r, hr⟩ := hfails
    have he := hr inUse b
    have he' := hr inUse' b'
    unfold Wp at he he'
    rw [h] at he
    rw [h'] at he'
    rw [he, he', hview.stack]

end Work

/-! ## 3. Built-in natives -/

/-- Two worlds with the same heap. -/
def World.SameHeap (w w' : World) : Prop := w'.heap = w.heap

namespace Native

variable {key : String} {args : List Value} {record record' : Option Nat} {α : Type}

/-- Two pieces of natives that come to exactly the same in worlds with the same heap. -/
abbrev Likewise (x x' : Action World α) : Prop := Action.Likewise World.SameHeap x x'

theorem look_likewise (f : Heap → Except RunError α) :
    Likewise (Action.inspect fun w => f w.heap) (Action.inspect fun w => f w.heap) :=
  inspect fun _ _ h => congrArg f h

theorem arg_likewise (index : Nat) : Likewise (NativeCall.arg ⟨key, args, record⟩ index)
    (NativeCall.arg ⟨key, args, record'⟩ index) :=
  inspect fun _ _ _ => rfl

theorem target_likewise (index : Nat) : Likewise (NativeCall.target ⟨key, args, record⟩ index)
    (NativeCall.target ⟨key, args, record'⟩ index) :=
  bind (arg_likewise index) fun v => look_likewise fun h => h.target key v

theorem int_likewise (index : Nat) : Likewise (NativeCall.int ⟨key, args, record⟩ index)
    (NativeCall.int ⟨key, args, record'⟩ index) :=
  bind (arg_likewise index) fun v => look_likewise fun h => h.int v

/-- **A built-in native comes to exactly the same** whatever the store knows and whatever record
comes with the call. -/
theorem builtIn_likewise : ∀ e ∈ builtIn, ∀ key args record record',
    Likewise (e.2.body ⟨key, args, record⟩) (e.2.body ⟨key, args, record'⟩) := by
  have hclone : ∀ key args record record',
      Likewise (clone ⟨key, args, record⟩) (clone ⟨key, args, record'⟩) :=
        fun key args record record' =>
    bind (target_likewise 0) fun o => bind (look_likewise fun h => h.duplicate o) fun x =>
      bind (update fun w w' h => ⟨congrArg (fun heap : Heap => (heap.allocate x).1) h,
        congrArg (fun heap : Heap => (heap.allocate x).2) h⟩) fun _ => pure _
  have hcopy : ∀ key args record record',
      Likewise (arrayCopy ⟨key, args, record⟩) (arrayCopy ⟨key, args, record'⟩) :=
    fun key args record record' => bind (target_likewise 0) fun source =>
      bind (target_likewise 2) fun target => bind (int_likewise 1) fun position =>
        bind (int_likewise 3) fun start => bind (int_likewise 4) fun length =>
          bind (look_likewise fun h => h.copyRange source position target start length) fun heap =>
            bind (update fun _ _ _ => ⟨rfl, rfl⟩) fun _ => pure _
  unfold builtIn
  simp only [List.forall_mem_cons]
  refine ⟨fun _ _ _ _ => ?_, fun _ _ _ _ => ?_, fun _ _ _ _ => ?_, fun _ _ _ _ => ?_, hcopy, hclone,
    hclone, hclone, by simp⟩
  · exact bind (int_likewise 1) fun index => bind (target_likewise 0) fun o =>
      bind (look_likewise fun h => h.charAt o index) fun _ => pure _
  · exact bind (target_likewise 0) fun o => bind (look_likewise fun h => h.length o) fun _ => pure _
  · exact bind (arg_likewise 0) fun a => bind (arg_likewise 1) fun b =>
      bind (look_likewise fun h => h.stringEquals a b) fun _ => pure _
  · exact bind (int_likewise 0) fun _ => pure _

end Native

end Provenance
