/-
# What every instruction keeps

Whatever instructions, hooks and the built-in natives do to the world, they do by a few operations
on its heap and its store.  A property of worlds that all of these keep (`World.Invariant`) is kept
by every instruction, whether it fails or not (`Work.perform_upholds`), and by the built-in natives
(`Native.builtIn_upholds`).  So it holds wherever a run executes an instruction, and where the run
ends (`World.Invariant.invokes`).

`World.Robust` asks for less and gives less: it is about instructions that change no array and no
field, and says nothing of those that fail.
-/
import Provenance.Proofs.Limits
import Provenance.Proofs.Sparing

namespace Provenance

variable {α β σ : Type}

/-! ## 1. Actions that keep something -/

namespace Action

/-- An action that keeps a property of the state, whether it fails or not. -/
def Keeps (P : σ → Prop) (x : Action σ α) : Prop := ∀ s, P s → P (x.outcome s).2

namespace Keeps

variable {P : σ → Prop}

theorem pure (a : α) : Keeps P (Pure.pure a) := fun _ h => h

theorem throw (e : RunError) : Keeps P (MonadExcept.throw e : Action σ α) := fun _ h => h

theorem inspect (f : σ → Except RunError α) : Keeps P (Action.inspect f) := fun _ h => h

theorem update {f : σ → α × σ} (hf : ∀ s, P s → P (f s).2) : Keeps P (Action.update f) := hf

theorem bind {x : Action σ α} {f : α → Action σ β} (hx : Keeps P x) (hf : ∀ a, Keeps P (f a)) :
    Keeps P (x >>= f) := by
  intro s h
  have hs := hx s h
  rw [outcome_bind]
  generalize x.outcome s = r at hs
  obtain ⟨_ | a, t⟩ := r
  · exact hs
  · exact hf a t hs

/-- What was read off the state is so of the state that goes on. -/
theorem inspect_bind {f : σ → Except RunError α} {g : α → Action σ β}
    (h : ∀ s a, P s → f s = .ok a → P ((g a).outcome s).2) : Keeps P (Action.inspect f >>= g) := by
  intro s hs
  have hout : (Action.inspect f).outcome s = (f s, s) := rfl
  rw [outcome_bind, hout]
  cases hf : f s with
  | error e => exact hs
  | ok a => exact h s a hs hf

end Keeps

end Action

/-! ## 2. Properties of worlds -/

/-- A property of worlds that nothing touches that an instruction does to a world. -/
structure World.Invariant (P : World → Prop) : Prop where
  literals : ∀ {w : World} (literals : List (String × ObjectId)), P w → P { w with literals }
  string : ∀ {w : World} (chars : Array Char), P w → P (w.allocate (.string chars)).2
  newArray : ∀ {w : World} (elem : Ty) (length : Nat), P w →
    P (w.allocate (.newArray elem length)).2
  duplicate : ∀ {w : World} {o : ObjectId} {x : HeapObject}, P w → w.heap.duplicate o = .ok x →
    P (w.allocate x).2
  putElement : ∀ {w : World} (o : ObjectId) (i : Nat) (v : Value), P w →
    P { w with heap := w.heap.putElement o i v }
  copyRange : ∀ {w : World} {source target : ObjectId} {position targetPosition length : Int32}
    {heap : Heap}, P w → w.heap.copyRange source position target targetPosition length = .ok heap →
    P { w with heap }
  putField : ∀ {w : World} {o : ObjectId} {name : String} {t : Ty} {v : Value} {heap : Heap}, P w →
    w.heap.putField o name t v = .ok heap → P { w with heap }
  records : ∀ {w : World} (records : Table CallRecord) (pending : Option Nat), P w →
    P { w with store := { w.store with records, pending } }
  tracker : ∀ {w : World} (alive : ObjectId → Bool) (o : ObjectId), P w →
    P { w with store := (w.store.trackerOf alive o).2 }
  source : ∀ {w : World} (alive : ObjectId → Bool) (o : ObjectId) (index length : Nat)
    (source : Option TrackerId) (sourceIndex : Nat), P w →
    P { w with store := (w.store.setSource alive o index length source sourceIndex).2 }
  fieldPoint : ∀ {w : World} (o : ObjectId) (key : String) (point : Option Point), P w →
    P { w with store := w.store.setFieldPoint o key point }

theorem World.Invariant.robust {P : World → Prop} (hP : World.Invariant P) : World.Robust P where
  literals := hP.literals
  string := hP.string
  records := hP.records
  tracker := hP.tracker
  source {_} alive {o} index length source sourceIndex h _ :=
    hP.source alive o index length source sourceIndex h

/-! ## 3. Hooks and instructions -/

namespace Work

open Provenance.Action (Keeps)

variable {P : World → Prop} {inUse : Thunk (List Value)}

/-- Work that keeps a property of the world, whether it fails or not. -/
abbrev Upholds (P : World → Prop) (x : Work α) : Prop := x.Keeps fun b => P b.world

theorem push_upholds (v : Value) : Upholds P (push v) := Keeps.update fun _ h => h

theorem pop_upholds (u : RunError) : Upholds P (pop u) := by
  intro b h
  unfold Action.outcome pop
  cases b.stack <;> exact h

theorem popMany_upholds (u : RunError) (n : Nat) : Upholds P (popMany u n) := by
  intro b h
  unfold Action.outcome popMany
  split <;> exact h

theorem fromHeap_upholds (f : Heap → Except RunError α) : Upholds P (fromHeap f) := Keeps.inspect _

theorem onStore_upholds {f : Store → α × Store}
    (hf : ∀ w, P w → P { w with store := (f w.store).2 }) : Upholds P (onStore f) :=
  Keeps.update fun b h => hf b.world h

theorem tracking_upholds {f : (ObjectId → Bool) → Store → α × Store}
    (hf : ∀ alive w, P w → P { w with store := (f alive w.store).2 }) :
    Upholds P (tracking inUse f) := Keeps.update fun b h => hf _ b.world h

theorem popInt_upholds (u : RunError) : Upholds P (popInt u) :=
  (pop_upholds u).bind fun _ => fromHeap_upholds _

theorem popTarget_upholds (u : RunError) (context : String) : Upholds P (popTarget u context) :=
  (pop_upholds u).bind fun _ => fromHeap_upholds _

theorem takeRecord_upholds : Upholds P takeRecord :=
  (pop_upholds _).bind fun _ => fromHeap_upholds _

theorem changeHeap_upholds {f : Heap → Except RunError Heap}
    (hf : ∀ w heap, P w → f w.heap = .ok heap → P { w with heap }) : Upholds P (changeHeap f) :=
  Keeps.inspect_bind fun b heap h hheap => hf b.world heap h hheap

variable (hP : World.Invariant P)

include hP

theorem storeElement_upholds (o : ObjectId) (index : Int32) (v : Value) :
    Upholds P (storeElement o index v) :=
  (fromHeap_upholds _).bind fun i => Keeps.update fun _ h => hP.putElement o i v h

theorem string_upholds (chars : Array Char) : Upholds P (allocate (.string chars)) :=
  Keeps.update fun _ h => hP.string chars h

theorem constant_upholds (c : Constant) : Upholds P (constant c) := by
  cases c with
  | str text => exact Keeps.bind (Keeps.update fun b h => hP.robust.literal text h) fun _ =>
      Keeps.pure _
  | _ => exact Keeps.pure _

theorem setSource_upholds (o : ObjectId) (index length : Nat) (source : Option TrackerId)
    (sourceIndex : Nat) : Upholds P (setSource inUse o index length source sourceIndex) :=
  tracking_upholds fun alive _ h => hP.source alive o index length source sourceIndex h

theorem trackerOf_upholds (o : ObjectId) : Upholds P (trackerOf inUse o) :=
  tracking_upholds fun alive _ h => hP.tracker alive o h

theorem pointAt_upholds (o : ObjectId) (index : Nat) : Upholds P (pointAt inUse o index) :=
  tracking_upholds fun alive _ h => hP.robust.pointAt alive o index h

theorem elementPoint_upholds (v : Value) (index : Int32) :
    Upholds P (elementPoint inUse v index) := by
  refine (fromHeap_upholds _).bind fun target => ?_
  cases target with
  | none => exact Keeps.pure _
  | some o =>
    by_cases hindex : index < 0
    · simp only [hindex, if_true]
      exact Keeps.pure _
    · simp only [hindex, if_false]
      exact pointAt_upholds hP o _

theorem storeWithPoint_upholds : Upholds P (storeWithPoint inUse) := by
  refine (pop_upholds _).bind fun point => (pop_upholds _).bind fun value => ?_
  refine (popInt_upholds _).bind fun index => (popTarget_upholds _ _).bind fun array => ?_
  refine (storeElement_upholds hP _ _ _).bind fun _ => (fromHeap_upholds _).bind fun point => ?_
  exact (setSource_upholds hP _ _ _ _ _).bind fun _ => Keeps.pure _

theorem copyArray_upholds (args : List Value) : Upholds P (copyArray inUse args) := by
  unfold copyArray copyArrayBy
  split
  · refine (fromHeap_upholds _).bind fun _ => (fromHeap_upholds _).bind fun _ => ?_
    refine (fromHeap_upholds _).bind fun _ => (fromHeap_upholds _).bind fun _ => ?_
    refine (fromHeap_upholds _).bind fun _ => ?_
    refine (changeHeap_upholds fun _ _ h hheap => hP.copyRange h hheap).bind fun _ => ?_
    exact (trackerOf_upholds hP _).bind fun _ =>
      (setSource_upholds hP _ _ _ _ _).bind fun _ => Keeps.pure _
  · exact Keeps.throw _

theorem duplicate_upholds (o : ObjectId) :
    Upholds P (do allocate (← fromHeap fun h => h.duplicate o)) :=
  Keeps.inspect_bind fun _ _ h hx => hP.duplicate h hx

theorem cloneArray_upholds (v : Value) : Upholds P (cloneArray inUse v) := by
  unfold cloneArray cloneArrayBy
  refine (fromHeap_upholds _).bind fun array => ?_
  rw [← bind_assoc]
  refine (duplicate_upholds hP array).bind
    fun copy => (trackerOf_upholds hP _).bind fun tracker => ?_
  cases tracker with
  | none => exact Keeps.pure _
  | some tracker =>
    exact (fromHeap_upholds _).bind fun _ =>
      (setSource_upholds hP _ _ _ _ _).bind fun _ => Keeps.pure _

theorem characterSources_upholds (o : ObjectId) (table : TrackerId) :
    ∀ (offsets : List Nat) (index : Nat), Upholds P (characterSources inUse o table index offsets)
  | [], _ => Keeps.pure _
  | offset :: rest, index => by
    refine (setSource_upholds hP o index 1 (some table) offset).bind fun taken => ?_
    cases taken with
    | false => exact Keeps.pure _
    | true => exact characterSources_upholds o table rest (index + 1)

theorem literalSource_upholds (o : ObjectId) (text : List Char) (table : TrackerId) (offset : Nat) :
    Upholds P (literalSource inUse o text table offset) := by
  unfold literalSource literalSourceBy
  by_cases hascii : Utf8.isAscii text = true
  · simp only [hascii, if_true]
    exact (setSource_upholds hP _ _ _ _ _).bind fun _ => Keeps.pure _
  · rw [if_neg hascii]
    exact characterSources_upholds hP o table _ 0

theorem copyLiteral_upholds (classId offset : Nat) (o : ObjectId) :
    Upholds P (copyLiteral inUse classId offset o) := by
  refine (fromHeap_upholds _).bind fun text => (string_upholds hP _).bind fun copy => ?_
  refine (onStore_upholds fun _ h => h).bind fun table => ?_
  cases table with
  | error _ => exact Keeps.pure _
  | ok table => exact (literalSource_upholds hP _ _ _ _).bind fun _ => Keeps.pure _

theorem recordSources_upholds (o : ObjectId) : ∀ sources : List TextSource,
    Upholds P (recordSources inUse o sources)
  | [] => Keeps.pure _
  | _ :: rest => (setSource_upholds hP _ _ _ _ _).bind fun _ => recordSources_upholds o rest

theorem joinTracked_upholds : ∀ (operands : List (Ty × Value)) (marks : List Char)
    (points : List Value) (start : Nat), Upholds P (joinTracked inUse start operands marks points)
  | [], _, _, _ => Keeps.pure _
  | _ :: _, [], _, _ => Keeps.pure _
  | (t, v) :: operands, mark :: marks, points, start => by
    have hrest (world : World) (source : Option TextSource) (points : List Value) :
        Upholds P (do
          let rest ← joinTracked inUse (start + (world.render t v).toList.length)
            operands marks points
          return ((world.render t v).toList ++ rest.1, source.toList ++ rest.2)) :=
      (joinTracked_upholds operands marks points _).bind fun _ => Keeps.pure _
    unfold joinTracked
    refine (Keeps.inspect _).bind fun world => ?_
    by_cases hmark : mark = 'T'
    · simp only [hmark, if_true]
      cases points with
      | nil =>
        rw [pure_bind]
        exact hrest world _ _
      | cons p points =>
        simp only [pure_bind]
        exact (fromHeap_upholds _).bind fun _ => hrest world _ _
    · simp only [hmark, if_false]
      cases v.object? with
      | none =>
        rw [pure_bind]
        exact hrest world _ _
      | some o =>
        simp only [pure_bind]
        exact (trackerOf_upholds hP o).bind fun _ => hrest world _ _

theorem concatenate_upholds (args : List Ty) (mask : String) (values points : List Value) :
    Upholds P (concatenate inUse args mask values points) :=
  (joinTracked_upholds hP _ _ _ _).bind fun _ => (string_upholds hP _).bind fun _ =>
    (recordSources_upholds hP _ _).bind fun _ => Keeps.pure _

/-- **Hooks** keep an invariant. -/
theorem hook_upholds (h : Hook) : Upholds P (hook inUse h) := by
  cases h with
  | constantPoint c => exact (onStore_upholds fun _ h => h).bind fun _ => push_upholds _
  | elementPoint =>
    exact (popInt_upholds _).bind fun _ => (pop_upholds _).bind fun _ =>
      (elementPoint_upholds hP _ _).bind fun _ => push_upholds _
  | arrayStoreWithPoint elem => exact storeWithPoint_upholds hP
  | fieldPoint key =>
    refine (pop_upholds _).bind fun v => (fromHeap_upholds _).bind fun target => ?_
    cases target with
    | none => exact push_upholds _
    | some o => exact (onStore_upholds fun _ h => h).bind fun _ => push_upholds _
  | setFieldPoint key =>
    refine (pop_upholds _).bind fun point => (pop_upholds _).bind fun v => ?_
    refine (fromHeap_upholds _).bind fun target => ?_
    cases target with
    | none => exact Keeps.pure _
    | some o =>
      exact (fromHeap_upholds _).bind fun point =>
        onStore_upholds fun _ h => hP.fieldPoint o key point h
  | invocationCreate signature =>
    refine (onStore_upholds fun w h => ?_).bind fun _ => push_upholds _
    cases w.store.isActive with
    | false => exact h
    | true => exact hP.records _ w.store.pending h
  | invocationSetArg slot =>
    refine (pop_upholds _).bind fun point => (pop_upholds _).bind fun v => ?_
    refine (fromHeap_upholds _).bind fun record => ?_
    cases record with
    | none => exact push_upholds _
    | some id =>
      exact (fromHeap_upholds _).bind fun point =>
        (onStore_upholds fun w (h : P w) => hP.robust.setArg h).bind fun _ => push_upholds _
  | invocationCalling =>
    refine (pop_upholds _).bind fun v => (fromHeap_upholds _).bind fun record => ?_
    cases record with
    | none => exact push_upholds _
    | some id =>
      refine (onStore_upholds fun w (h : P w) => ?_).bind fun _ => push_upholds _
      exact hP.records w.store.records (some id) h
  | invocationStart signature =>
    exact (onStore_upholds fun w (h : P w) => hP.robust.claim signature h).bind
      fun _ => push_upholds _
  | invocationArgPoint slot =>
    refine takeRecord_upholds.bind fun record => ?_
    cases record with
    | none => exact push_upholds _
    | some id => exact (onStore_upholds fun _ h => h).bind fun _ => push_upholds _
  | invocationReturnPoint =>
    refine takeRecord_upholds.bind fun record => ?_
    cases record with
    | none => exact push_upholds _
    | some id => exact (onStore_upholds fun _ h => h).bind fun _ => push_upholds _
  | invocationReturning =>
    refine (pop_upholds _).bind fun point => takeRecord_upholds.bind fun record => ?_
    cases record with
    | none => exact Keeps.pure _
    | some id =>
      exact (fromHeap_upholds _).bind fun point =>
        onStore_upholds fun w h => hP.records _ w.store.pending h
  | stringEquals =>
    exact (pop_upholds _).bind fun _ => (pop_upholds _).bind fun _ =>
      (fromHeap_upholds _).bind fun _ => push_upholds _
  | concatWithPoints args mask =>
    exact (popMany_upholds _ _).bind fun _ => (popMany_upholds _ _).bind fun _ =>
      (concatenate_upholds hP _ _ _ _).bind fun _ => push_upholds _
  | constantString classId offset =>
    refine (pop_upholds _).bind fun v => (fromHeap_upholds _).bind fun target => ?_
    cases target with
    | none => exact push_upholds _
    | some o => exact (copyLiteral_upholds hP _ _ _).bind fun _ => push_upholds _
  | arrayCopy => exact (popMany_upholds _ _).bind fun _ => copyArray_upholds hP _
  | arrayClone =>
    exact (pop_upholds _).bind fun _ => (cloneArray_upholds hP _).bind fun _ => push_upholds _

/-- **Instructions** keep an invariant. -/
theorem perform_upholds (method : String) (u : RunError) (inUse : Thunk (List Value)) (i : Insn) :
    Upholds P (perform method u inUse i) := by
  have hpush (v : Value) : Upholds P (do push v; return Transfer.next) :=
    (push_upholds v).bind fun _ => Keeps.pure _
  cases i with
  | nop | label _ | goto _ => exact Keeps.pure _
  | const c => exact (constant_upholds hP c).bind hpush
  | load l => exact Keeps.bind (Keeps.inspect _) hpush
  | store l =>
    exact (pop_upholds u).bind fun _ => Keeps.bind (Keeps.bind (Keeps.inspect _) fun _ =>
      Keeps.update fun _ h => h) fun _ => Keeps.pure _
  | dup => exact (pop_upholds u).bind fun v => (push_upholds v).bind fun _ => hpush v
  | dupX1 =>
    exact (pop_upholds u).bind fun b => (pop_upholds u).bind fun a => (push_upholds b).bind fun _ =>
      (push_upholds a).bind fun _ => hpush b
  | dup2 =>
    exact (pop_upholds u).bind fun b => (pop_upholds u).bind fun a => (push_upholds a).bind fun _ =>
      (push_upholds b).bind fun _ => (push_upholds a).bind fun _ => hpush b
  | pop => exact (pop_upholds u).bind fun _ => Keeps.pure _
  | swap =>
    exact (pop_upholds u).bind fun b => (pop_upholds u).bind fun a => (push_upholds b).bind fun _ =>
      hpush a
  | arrayLoad _ =>
    exact (popInt_upholds u).bind fun _ => (popTarget_upholds u _).bind fun _ =>
      (fromHeap_upholds _).bind hpush
  | arrayStore _ =>
    exact (pop_upholds u).bind fun _ => (popInt_upholds u).bind fun _ =>
      (popTarget_upholds u _).bind fun _ => (storeElement_upholds hP _ _ _).bind
      fun _ => Keeps.pure _
  | arrayLength =>
    exact (popTarget_upholds u _).bind fun _ => (fromHeap_upholds _).bind fun _ => hpush _
  | newArray elem =>
    refine (popInt_upholds u).bind fun count => ?_
    split
    · exact Keeps.throw _
    · exact Keeps.bind (Keeps.update fun _ h => hP.newArray elem _ h) fun _ => hpush _
  | getField f => exact (popTarget_upholds u _).bind fun _ => (fromHeap_upholds _).bind hpush
  | putField f =>
    exact (pop_upholds u).bind fun _ => (popTarget_upholds u _).bind fun _ =>
      (changeHeap_upholds fun _ _ h hheap => hP.putField h hheap).bind fun _ => Keeps.pure _
  | binary op t =>
    exact (pop_upholds u).bind fun _ => (pop_upholds u).bind fun _ =>
      (fromHeap_upholds _).bind hpush
  | convert _ _ => exact (pop_upholds u).bind fun _ => (fromHeap_upholds _).bind hpush
  | invoke m => exact (popMany_upholds u _).bind fun _ => Keeps.pure _
  | concat args =>
    exact (popMany_upholds u _).bind fun _ => Keeps.bind (Keeps.inspect _) fun _ =>
      (string_upholds hP _).bind fun _ => hpush _
  | ifZero cond l => exact (popInt_upholds u).bind fun _ => Keeps.pure _
  | ifCmp cond l =>
    exact (popInt_upholds u).bind fun _ => (popInt_upholds u).bind fun _ => Keeps.pure _
  | ifNull l | ifNonNull l =>
    exact (pop_upholds u).bind fun _ => (fromHeap_upholds _).bind fun _ => Keeps.pure _
  | ifRefEq l | ifRefNe l =>
    exact (pop_upholds u).bind fun _ => (pop_upholds u).bind fun _ =>
      (fromHeap_upholds _).bind fun _ => Keeps.pure _
  | ret t =>
    by_cases ht : t = .void
    · simp only [perform, ht, if_true]
      exact Keeps.pure _
    · simp only [perform, ht, if_false]
      exact (pop_upholds u).bind fun _ => Keeps.pure _
  | hook h => exact (hook_upholds hP h).bind fun _ => Keeps.pure _

end Work

/-! ## 4. Natives -/

namespace Native

open Provenance.Action (Keeps)

variable {P : World → Prop}

/-- A native that keeps a property of the world, whether it fails or not. -/
def Upholds (P : World → Prop) (n : Native) : Prop := ∀ call, (n.body call).Keeps P

/-- **The built-in natives** keep an invariant. -/
theorem builtIn_upholds (hP : World.Invariant P) : ∀ e ∈ builtIn, e.2.Upholds P := by
  have harg (call : NativeCall) (index : Nat) : (call.arg index).Keeps P := Keeps.inspect _
  have htarget (call : NativeCall) (index : Nat) : (call.target index).Keeps P :=
    (harg call index).bind fun _ => Keeps.inspect _
  have hint (call : NativeCall) (index : Nat) : (call.int index).Keeps P :=
    (harg call index).bind fun _ => Keeps.inspect _
  have hclone (call : NativeCall) : (clone call).Keeps P := by
    refine (htarget call 0).bind fun o => ?_
    rw [← bind_assoc]
    exact (Keeps.inspect_bind fun _ _ h hx => hP.duplicate h hx).bind fun _ => Keeps.pure _
  have hcopy (call : NativeCall) : (arrayCopy call).Keeps P := by
    refine (htarget call 0).bind fun _ => (htarget call 2).bind fun _ =>
      (hint call 1).bind fun _ => ?_
    refine (hint call 3).bind fun _ => (hint call 4).bind fun _ => ?_
    rw [← bind_assoc]
    refine Keeps.bind (Keeps.inspect_bind fun w _ h hheap => ?_) fun _ => Keeps.pure _
    exact hP.copyRange h hheap
  unfold builtIn
  simp only [List.forall_mem_cons]
  refine ⟨fun call => ?_, fun call => ?_, fun call => ?_, fun call => ?_, hcopy, hclone,
    hclone, hclone, by simp⟩
  · exact (hint call 1).bind fun _ => (htarget call 0).bind fun _ =>
      (Keeps.inspect _).bind fun _ => Keeps.pure _
  · exact (htarget call 0).bind fun _ => (Keeps.inspect _).bind fun _ => Keeps.pure _
  · exact (harg call 0).bind fun _ => (harg call 1).bind fun _ =>
      (Keeps.inspect _).bind fun _ => Keeps.pure _
  · exact (hint call 0).bind fun _ => Keeps.pure _

end Native

/-! ## 5. Runs -/

/-- The world in which a run stands or has ended. -/
def Progress.world : Progress → World
  | .running s => s.world
  | .ended r => r.world

theorem deliver_world (w : World) (v : Option Value) : ∀ callers : List Waiting,
    (deliver w v callers).world = w
  | [] => rfl
  | _ :: _ => rfl

theorem activate_world (w : World) (callers : List Waiting) (r : Routine) (args : List Value) :
    (Program.activate w callers r args).world = w := by
  unfold Program.activate
  cases r.labelFault with
  | some e => rfl
  | none =>
    simp only
    split <;> rfl

namespace World.Invariant

variable {P : World → Prop} {p : Program} {limits : MachineSettings} {w : World}
  {callers : List Waiting} {owner name descriptor : String} {args : List Value} {budget : Nat}
  {s : RunState} {executed : List RunState} {r : RunResult} (hP : World.Invariant P)

include hP

/-- A native claims what waits for it before it does anything. -/
theorem callNative {n : Native} (hn : n.Upholds P) (h : P w) (key signature : String) :
    P (Program.callNative w callers n key signature args).world := by
  unfold Program.callNative
  have hclaimed := hP.robust.claim signature h
  rcases hclaim : w.store.claim signature with ⟨record, store⟩
  rw [hclaim] at hclaimed
  have hkept := hn ⟨key, args, record⟩ { w with store } hclaimed
  simp only at hkept ⊢
  generalize (n.body ⟨key, args, record⟩).outcome { w with store } = r at hkept ⊢
  obtain ⟨_ | v, w'⟩ := r
  · exact hkept
  · simp only [deliver_world]
    exact hkept

theorem enter (hp : ∀ e ∈ p.natives, e.2.Upholds P) (h : P w) (limits : MachineSettings)
    (callers : List Waiting) (owner name descriptor : String) (args : List Value) :
    P (p.enter limits w callers owner name descriptor args).world := by
  unfold Program.enter
  split
  · exact h
  · cases p.routine? owner name descriptor with
    | some r =>
      simp only [activate_world]
      exact h
    | none =>
      simp only
      cases hn : p.native? (methodKey owner name descriptor) with
      | none => exact h
      | some n => exact hP.callNative (hp _ (mem_of_lookup hn)) h _ _

theorem transfer (hp : ∀ e ∈ p.natives, e.2.Upholds P) (h : P w) (a : Activation) (t : Transfer) :
    P (p.transfer limits w a callers t).world := by
  unfold Program.transfer
  cases t with
  | next => exact h
  | jump l =>
    simp only
    cases a.routine.method.labelAt? l <;> exact h
  | call m args => exact hP.enter hp h _ _ _ _ _ _
  | ret v =>
    simp only [deliver_world]
    exact h

/-- **A step** keeps an invariant, also if it is the last one. -/
theorem step (hp : ∀ e ∈ p.natives, e.2.Upholds P) (h : P s.world)
    (limits : MachineSettings) (i : Insn) :
    P (p.step limits s i).world := by
  obtain ⟨w, a, callers⟩ := s
  have hkept := Work.perform_upholds hP a.routine.key a.underflow (RunState.inUse a callers) i
    ⟨w, a.locals, a.stack⟩ h
  rcases hr : (Work.perform _ _ _ i).outcome ⟨w, a.locals, a.stack⟩ with ⟨_ | t, b⟩ <;>
    rw [hr] at hkept
  · rw [Program.step_of_error hr]
    exact hkept
  · rw [Program.step_of_ok hr]
    exact hP.transfer hp hkept _ t

/-- **A run** keeps an invariant. -/
theorem executes (hp : ∀ e ∈ p.natives, e.2.Upholds P)
    (hrun : p.Executes limits budget s executed r) (h : P s.world) :
    (∀ t ∈ executed, P t.world) ∧ P r.world := by
  induction hrun with
  | fell _ => exact ⟨by simp, h⟩
  | cut _ => exact ⟨by simp, h⟩
  | @ended budget s i r _ hr =>
    have hstep := hP.step hp h limits i
    rw [hr] at hstep
    exact ⟨List.forall_mem_singleton.mpr h, hstep⟩
  | @step budget s t i executed r _ ht _ ih =>
    have hstep := hP.step hp h limits i
    rw [ht] at hstep
    obtain ⟨hstates, hend⟩ := ih hstep
    exact ⟨List.forall_mem_cons.mpr ⟨h, hstates⟩, hend⟩

/-- **An invocation** keeps an invariant. -/
theorem invokes (hp : ∀ e ∈ p.natives, e.2.Upholds P)
    (hrun : p.Invokes limits w owner name descriptor args executed r) (h : P w) :
    (∀ t ∈ executed, P t.world) ∧ P r.world := by
  have henter := hP.enter hp h limits [] owner name descriptor args
  cases hrun with
  | ended hr =>
    rw [hr] at henter
    exact ⟨by simp, henter⟩
  | running hs hrun =>
    rw [hs] at henter
    exact hP.executes hp hrun henter

end World.Invariant

end Provenance
