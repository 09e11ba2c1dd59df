/-
# What instructions spare

Most instructions and hooks make no objects but strings and change none, and of the store they touch
the call records, the count of its operations and where strings came from.  A property of worlds
that bears this much (`World.Robust`) is kept by all of them (`Work.perform_maintains`), so what is
shown of such a property has to look only at the few that do more (`Insn.Spares`).
-/
import Provenance.Proofs.StraightLine

namespace Provenance

open Provenance.Action (Wp)

/-! ## 1. Properties of worlds -/

/-- A property of worlds that strings, call records and the provenance of strings do not touch. -/
structure World.Robust (P : World → Prop) : Prop where
  literals : ∀ {w : World} (literals : List (String × ObjectId)), P w → P { w with literals }
  string : ∀ {w : World} (chars : Array Char), P w → P (w.allocate (.string chars)).2
  records : ∀ {w : World} (records : Table CallRecord) (pending : Option Nat), P w →
    P { w with store := { w.store with records, pending } }
  tracker : ∀ {w : World} (alive : ObjectId → Bool) (o : ObjectId), P w →
    P { w with store := (w.store.trackerOf alive o).2 }
  source : ∀ {w : World} (alive : ObjectId → Bool) {o : ObjectId} (index length : Nat)
    (source : Option TrackerId) (sourceIndex : Nat), P w →
    (∃ chars, w.heap.objects.get? o = some (.string chars)) →
    P { w with store := (w.store.setSource alive o index length source sourceIndex).2 }

namespace World.Robust

variable {P : World → Prop} {w : World} (hP : Robust P)
include hP

theorem claim (signature : String) (hw : P w) :
    P { w with store := (w.store.claim signature).2 } := by
  have hleft := hP.records w.store.records none hw
  unfold Store.claim
  simp only
  split
  · exact hleft
  · split <;> exact hleft

theorem setArg {id slot : Nat} {point : Option Point} (hw : P w) :
    P { w with store := match w.store.setArg id slot point with
      | .ok s => s
      | .error _ => w.store } := by
  unfold Store.setArg
  by_cases hslot : slot < Store.maxArgSlots
  · simp only [if_pos hslot]
    exact hP.records _ w.store.pending hw
  · simp only [if_neg hslot]
    exact hw

theorem pointAt (alive : ObjectId → Bool) (o : ObjectId) (index : Nat) (hw : P w) :
    P { w with store := (w.store.pointAt alive o index).2 } := by
  have htracker := hP.tracker alive o hw
  unfold Store.pointAt
  generalize w.store.trackerOf alive o = r at htracker ⊢
  obtain ⟨id?, s⟩ := r
  cases id? <;> exact htracker

theorem literal (text : String) (hw : P w) : P (w.literal text).2 := by
  unfold World.literal
  split
  · exact hw
  · exact hP.literals _ (hP.string _ hw)

end World.Robust

/-! ## 2. Actions -/

namespace Work

variable {α β : Type} {P : World → Prop} {inUse : Thunk (List Value)}

/-- An action that keeps a property of worlds, unless it fails. -/
def Maintains (P : World → Prop) (x : Work α) : Prop :=
  ∀ b, P b.world → Wp x (fun _ b' => P b'.world) (fun _ _ => True) b

theorem maintains_pure (a : α) : Maintains P (pure a) := fun _ hb => hb

theorem Maintains.bind {x : Work α} {f : α → Work β} (hx : Maintains P x)
    (hf : ∀ a, Maintains P (f a)) : Maintains P (x >>= f) := fun b hb =>
  (Action.wp_bind x f b).mpr ((hx b hb).mono (fun a b' hb' => hf a b' hb') fun _ _ h => h)

theorem maintains_inspect (f : Bench → Except RunError α) : Maintains P (Action.inspect f) := by
  intro b hb
  rw [Action.wp_inspect]
  split
  · exact hb
  · trivial

theorem maintains_fromHeap (f : Heap → Except RunError α) : Maintains P (fromHeap f) :=
  maintains_inspect _

theorem maintains_push (v : Value) : Maintains P (push v) := fun _ hb => hb

theorem maintains_pop (u : RunError) : Maintains P (pop u) := by
  intro b hb
  rw [wp_pop]
  split
  · trivial
  · exact hb

theorem maintains_popMany (u : RunError) (n : Nat) : Maintains P (popMany u n) := by
  intro b hb
  rw [wp_popMany]
  split
  · trivial
  · exact hb

theorem maintains_onStore {f : Store → α × Store}
    (hf : ∀ w, P w → P { w with store := (f w.store).2 }) : Maintains P (onStore f) :=
  fun b hb => hf b.world hb

theorem maintains_tracking {f : (ObjectId → Bool) → Store → α × Store}
    (hf : ∀ alive w, P w → P { w with store := (f alive w.store).2 }) :
    Maintains P (tracking inUse f) := fun b hb => hf _ b.world hb

section Robust

variable (hP : World.Robust P)
include hP

theorem trackerOf_maintains (o : ObjectId) : Maintains P (trackerOf inUse o) :=
  maintains_tracking fun alive _ hw => hP.tracker alive o hw

theorem pointAt_maintains (o : ObjectId) (index : Nat) : Maintains P (pointAt inUse o index) :=
  maintains_tracking fun alive _ hw => hP.pointAt alive o index hw

/-- A string that was just made stays one while its sources are recorded. -/
theorem setSource_maintains (o : ObjectId) (index length : Nat) (source : Option TrackerId)
    (sourceIndex : Nat) :
    Maintains (fun w => P w ∧ ∃ chars, w.heap.objects.get? o = some (.string chars))
      (setSource inUse o index length source sourceIndex) :=
  maintains_tracking fun alive _ hw =>
    ⟨hP.source alive index length source sourceIndex hw.1 hw.2, hw.2⟩

theorem characterSources_maintains (o : ObjectId) (table : TrackerId) : ∀ (offsets : List Nat)
    (index : Nat), Maintains (fun w => P w ∧ ∃ chars, w.heap.objects.get? o = some (.string chars))
      (characterSources inUse o table index offsets)
  | [], _ => maintains_pure ()
  | offset :: rest, index =>
    (setSource_maintains hP o index 1 (some table) offset).bind fun taken => by
    cases taken
    · exact maintains_pure ()
    · exact characterSources_maintains o table rest (index + 1)

theorem recordSources_maintains (o : ObjectId) : ∀ sources : List TextSource,
    Maintains (fun w => P w ∧ ∃ chars, w.heap.objects.get? o = some (.string chars))
      (recordSources inUse o sources)
  | [] => maintains_pure ()
  | s :: rest =>
    (setSource_maintains hP o s.start s.length (some s.source) s.sourceIndex).bind fun _ =>
    recordSources_maintains o rest

/-- Making a string and doing something that keeps what holds while it is one. -/
theorem maintains_string {chars : Array Char} {f : ObjectId → Work β}
    (hf : ∀ o, Maintains (fun w => P w ∧
      ∃ chars, w.heap.objects.get? o = some (.string chars)) (f o)) :
    Maintains P (allocate (.string chars) >>= f) := by
  intro b hb
  simp only [allocate, Action.wp_bind, wp_onHeap]
  refine (hf _ _ ⟨hP.string chars hb, chars, ?_⟩).mono (fun _ _ h => h.1) fun _ _ h => h
  simp [Heap.allocate, Table.get?_add]

theorem literalSource_maintains (o : ObjectId) (text : List Char) (table : TrackerId)
    (offset : Nat) :
    Maintains (fun w => P w ∧ ∃ chars, w.heap.objects.get? o = some (.string chars))
      (literalSource inUse o text table offset) := by
  unfold literalSource literalSourceBy
  split
  · exact (setSource_maintains hP o 0 _ _ _).bind fun _ => maintains_pure _
  · exact characterSources_maintains hP o table _ 0

theorem copyLiteral_maintains (classId offset : Nat) (o : ObjectId) :
    Maintains P (copyLiteral inUse classId offset o) := by
  refine (maintains_fromHeap _).bind fun text => maintains_string hP fun copy => ?_
  refine (maintains_onStore fun _ hw => hw).bind fun table => ?_
  cases table with
  | error e => exact maintains_pure _
  | ok table =>
    exact (literalSource_maintains hP copy text.toList table.tracker offset).bind fun _ =>
      maintains_pure _

theorem joinTracked_maintains : ∀ (operands : List (Ty × Value)) (start : Nat) (marks : List Char)
    (points : List Value), Maintains P (joinTracked inUse start operands marks points)
  | [], _, _, _ => maintains_pure _
  | (t, v) :: operands, _, [], _ => maintains_pure _
  | (t, v) :: operands, start, mark :: marks, points => by
    unfold joinTracked
    refine (maintains_inspect _).bind fun world => ?_
    have hrest := fun start points => joinTracked_maintains operands start marks points
    simp only
    split
    · cases points with
      | nil => exact (maintains_pure _).bind fun _ => (hrest _ _).bind fun _ => maintains_pure _
      | cons p points =>
        exact (maintains_fromHeap _).bind fun _ => (maintains_pure _).bind fun _ =>
          (hrest _ _).bind fun _ => maintains_pure _
    · split
      · exact (maintains_pure _).bind fun _ => (hrest _ _).bind fun _ => maintains_pure _
      · exact (trackerOf_maintains hP _).bind fun _ => (maintains_pure _).bind fun _ =>
          (hrest _ _).bind fun _ => maintains_pure _

theorem concatenate_maintains (args : List Ty) (mask : String) (values points : List Value) :
    Maintains P (concatenate inUse args mask values points) :=
  (joinTracked_maintains hP _ _ _ _).bind fun r => maintains_string hP fun o =>
    (recordSources_maintains hP o r.2).bind fun _ => maintains_pure _

end Robust

end Work

/-! ## 3. Instructions -/

/-- An instruction that touches neither arrays nor fields, nor what is known of them. -/
def Insn.Spares : Insn → Prop
  | .newArray _ | .arrayStore _ | .putField _ | .hook (.arrayStoreWithPoint _) | .hook
      (.setFieldPoint _)
  | .hook .arrayCopy | .hook .arrayClone => False
  | _ => True

namespace Work

variable {P : World → Prop} {inUse : Thunk (List Value)}

/-- A hook that spares arrays and fields. -/
theorem hook_maintains (hP : World.Robust P) {h : Hook} (hh : (Insn.hook h).Spares) :
    Maintains P (hook inUse h) := by
  have htake : Maintains P take := maintains_pop _
  have hrecord : Maintains P takeRecord := htake.bind fun _ => maintains_fromHeap _
  unfold hook
  cases h with
  | constantPoint c => exact (maintains_onStore fun _ hw => hw).bind fun _ => maintains_push _
  | elementPoint =>
    refine ((maintains_pop _).bind fun _ => maintains_fromHeap _).bind fun index =>
      htake.bind fun v => Maintains.bind ?_ fun _ => maintains_push _
    refine (maintains_fromHeap _).bind fun o? => ?_
    cases o? with
    | none => exact maintains_pure _
    | some o =>
      simp only
      split
      · exact maintains_pure _
      · exact pointAt_maintains hP o _
  | fieldPoint key =>
    refine htake.bind fun v => (maintains_fromHeap _).bind fun o? => ?_
    cases o? with
    | none => exact maintains_push _
    | some o => exact (maintains_onStore fun _ hw => hw).bind fun _ => maintains_push _
  | invocationCreate signature =>
    refine (maintains_onStore fun w hw => ?_).bind fun _ => maintains_push _
    split
    · exact hP.records _ w.store.pending hw
    · exact hw
  | invocationSetArg slot =>
    refine htake.bind fun _ => htake.bind fun _ => (maintains_fromHeap _).bind fun id? => ?_
    cases id? with
    | none => exact maintains_push _
    | some id =>
      exact (maintains_fromHeap _).bind fun point =>
        (maintains_onStore fun _ hw => hP.setArg hw).bind fun _ => maintains_push _
  | invocationCalling =>
    refine htake.bind fun _ => (maintains_fromHeap _).bind fun id? => ?_
    cases id? with
    | none => exact maintains_push _
    | some id =>
      exact (maintains_onStore fun w hw => hP.records w.store.records _ hw).bind
        fun _ => maintains_push _
  | invocationStart signature =>
    exact (maintains_onStore fun _ hw => hP.claim signature hw).bind fun _ => maintains_push _
  | invocationArgPoint slot =>
    refine hrecord.bind fun id? => ?_
    cases id? with
    | none => exact maintains_push _
    | some id => exact (maintains_onStore fun _ hw => hw).bind fun _ => maintains_push _
  | invocationReturnPoint =>
    refine hrecord.bind fun id? => ?_
    cases id? with
    | none => exact maintains_push _
    | some id => exact (maintains_onStore fun _ hw => hw).bind fun _ => maintains_push _
  | invocationReturning =>
    refine htake.bind fun _ => hrecord.bind fun id? => ?_
    cases id? with
    | none => exact maintains_pure _
    | some id =>
      exact (maintains_fromHeap _).bind fun point =>
        maintains_onStore fun w hw => hP.records _ w.store.pending hw
  | stringEquals =>
    exact htake.bind fun _ => htake.bind fun _ => (maintains_fromHeap _).bind fun _ =>
      maintains_push _
  | concatWithPoints args mask =>
    exact (maintains_popMany _ _).bind fun points => (maintains_popMany _ _).bind fun values =>
      (concatenate_maintains hP args mask values points).bind fun _ => maintains_push _
  | constantString classId offset =>
    refine htake.bind fun _ => (maintains_fromHeap _).bind fun o? => ?_
    cases o? with
    | none => exact maintains_push _
    | some o => exact (copyLiteral_maintains hP classId offset o).bind fun _ => maintains_push _
  | arrayStoreWithPoint _ | setFieldPoint _ | arrayCopy | arrayClone => exact hh.elim

/-- **An instruction that spares arrays and fields** keeps what bears that much. -/
theorem perform_maintains (hP : World.Robust P) (method : String) (u : RunError)
    (inUse : Thunk (List Value)) {i : Insn} (hi : i.Spares) :
    Maintains P (perform method u inUse i) := by
  intro b hb
  cases i with
  | hook h => exact ((hook_maintains hP hi).bind fun _ => maintains_pure _) b hb
  | const c =>
    cases c with
    | str text => exact hP.literal text hb
    | _ => exact hb
  | concat args =>
    refine ((maintains_popMany _ _).bind fun _ => (maintains_inspect _).bind fun _ => ?_) b hb
    exact maintains_string hP fun o => (maintains_push _).bind fun _ => maintains_pure _
  | newArray _ | arrayStore _ | putField _ => exact hi.elim
  | ret t =>
    by_cases ht : t = .void
    · simp only [perform, if_pos ht]
      exact hb
    · simp only [perform, if_neg ht]
      exact ((maintains_pop _).bind fun _ => maintains_pure _) b hb
  | _ =>
    simp only [perform, loadLocal, storeLocal, popInt, popTarget, Action.wp_bind,
      wp_pop, wp_popMany, Action.wp_inspect, Action.wp_update, wp_fromHeap, wp_push, Action.wp_pure]
    repeat' split
    all_goals trivial

end Work

end Provenance
