/-
# Element points are those of the last write

What the hook before a read of an array element looks up is what was recorded with the last write of
that element, if weaving follows writes of that kind (`Program.elementPoint_of_lastWrite`): an
element store of a type whose elements are followed, a bulk copy that is a hook, or a clone.

Writes of other kinds leave the tracker of the array alone, so the point of the value before is
still there: bulk copies between arrays that the analysis does not see to be of bytes or of chars
(`Woven.Covering.invoke`), and stores that name another type than the array has
(`moveCodes_stalePoint`).
-/
import Provenance.Proofs.ElementHistory
import Provenance.Proofs.FieldPoints
import Provenance.Proofs.Taking

namespace Provenance

open Provenance.Action (Wp)

/-! ## 1. One instruction -/

/-- The elements of arrays, watched. -/
def elementWatch : Watch ElementHistory where
  start := ⟨[]⟩
  after i b h := h.after i b
  Given _ b := b.world.store.isActive
  Holds w h := h.Agrees w
  Shows i b h := i = .hook .elementPoint → h.Agrees b.world

namespace ElementHistory

variable {h : ElementHistory} {w : World} {i : Insn} {b : Bench} {inUse : Thunk (List Value)}

theorem keeps_of_wp (hwp : ∀ b (h : ElementHistory), b.world.store.isActive → h.Agrees b.world →
    ∀ method u inUse, Wp (Work.perform method u inUse i) (fun _ b' => (h.after i b).Agrees b'.world)
      (fun _ _ => True) b) : elementWatch.Keeps i :=
  fun b h hactive hh => ⟨fun _ => hh, fun _ _ inUse => hwp b h hactive hh _ _ inUse⟩

theorem after_spares (hi : i.Spares) (hcall : ∀ m, i ≠ .invoke m) : h.after i b = h := by
  unfold after
  split
  · exact hi.elim
  · exact hi.elim
  · exact hi.elim
  · exact absurd rfl (hcall _)
  · exact hi.elim
  · rfl

theorem Agrees.call (hh : h.Agrees w) (args : List Value) :
    (h.add (w.copied false args)).Agrees w := by
  unfold World.copied
  split
  · split
    · rename_i hsource htarget
      exact hh.note ⟨_, _, Heap.get?_of_object htarget⟩ (.inl rfl)
    · exact hh
  · exact hh

/-- **What spares arrays** leaves things as they are, but a call may write to one later. -/
theorem keeps_spares (hi : i.Spares) : elementWatch.Keeps i :=
  keeps_of_wp fun b h _ hh method u inUse => by
    refine Work.perform_maintains (robust_agrees _) method u inUse hi b ?_
    by_cases hcall : ∃ m, i = .invoke m
    · obtain ⟨m, rfl⟩ := hcall
      unfold after
      simp only
      split
      · exact hh.call _
      · exact hh
    · rw [after_spares hi fun m hm => hcall ⟨m, hm⟩]
      exact hh

theorem keeps_newArray (t : Ty) : elementWatch.Keeps (.newArray t) :=
  keeps_of_wp fun b h _ hh method u inUse => by
    unfold Work.perform
    refine Work.wp_popInt_bind fun n S _ => ?_
    split
    · trivial
    · exact hh.allocate _

theorem keeps_putField (fd : FieldRef) : elementWatch.Keeps (.putField fd) :=
  keeps_of_wp fun b h _ hh method u inUse => by
    unfold Work.perform
    exact Work.wp_pop_bind fun v S _ => Work.wp_popTarget_bind fun o S' _ =>
      Work.wp_changeHeap_bind fun heap hput => hh.leave (Heap.overwrites_putField hput)
      fun i _ hlt => by omega

theorem keeps_setFieldPoint (key : String) : elementWatch.Keeps (.hook (.setFieldPoint key)) :=
  keeps_of_wp fun b h _ hh method u inUse => by
    refine (((Work.maintains_pop _).bind fun _ => (Work.maintains_pop _).bind fun v =>
      (Work.maintains_fromHeap _).bind fun o? => ?_).bind fun _ => Work.maintains_pure _) b hh
    cases o? with
    | none => exact Work.maintains_pure _
    | some o =>
      exact (Work.maintains_fromHeap _).bind fun point =>
        Work.maintains_onStore fun w hw =>
          hw.forgets (Store.forgets_setFieldPoint w.store o key point)

/-- **An element store that weaving leaves as it is.** -/
theorem keeps_arrayStore {t : Ty} (ht : ¬t.isTrackedElement) : elementWatch.Keeps (.arrayStore t) :=
  keeps_of_wp fun b h _ hh method u inUse => by
    obtain ⟨w, L, stack⟩ := b
    unfold Work.perform
    refine Work.wp_pop_bind fun v S₁ h₁ => Work.wp_popInt_bind fun n S₂ h₂ =>
      Work.wp_popTarget_bind fun o S₃ h₃ => Work.wp_storeElement_bind fun i hplace => ?_
    obtain rfl : stack = v :: .int n :: .ref o :: S₃ := by rw [← h₃, ← h₂, ← h₁]
    obtain ⟨elem, values, harray, -⟩ := Heap.elementPlace_eq_ok hplace
    exact hh.overwrite (Heap.overwrites_putElement hplace v) ⟨_, _, Heap.get?_of_object harray⟩
      (.inr ⟨t, rfl, ht⟩)

/-- **An element store with a point.** -/
theorem keeps_arrayStoreWithPoint (t : Ty) : elementWatch.Keeps (.hook (.arrayStoreWithPoint t)) :=
  keeps_of_wp fun b h hactive hh method u inUse => by
    obtain ⟨w, L, stack⟩ := b
    simp only [Work.perform, Work.hook, Work.storeWithPoint, Work.storeWithPointBy, bind_assoc]
    refine Work.wp_pop_bind fun p S₁ h₁ => Work.wp_pop_bind fun v S₂ h₂ =>
      Work.wp_popInt_bind fun n S₃ h₃ =>
      Work.wp_popTarget_bind fun o S₄ h₄ => Work.wp_storeElement_bind fun i hplace =>
      Work.wp_fromHeap_bind fun point hpoint => Work.wp_tracking_bind fun alive => ?_
    obtain rfl := Heap.point_eq_ok hpoint
    obtain rfl : stack = .ofPoint point :: v :: .int n :: .ref o :: S₄ := by
      rw [← h₄, ← h₃, ← h₂, ← h₁]
    obtain ⟨elem, values, harray, -⟩ := Heap.elementPlace_eq_ok hplace
    have ho : w.heap.IsArray o := ⟨_, _, Heap.get?_of_object harray⟩
    have hstore := Store.setSource_records hh.apart o (fun _ => hactive) alive n.toInt.toNat 1
      (point.map Point.tracker) ((point.map Point.index).getD 0)
    refine hh.write (Heap.overwrites_putElement hplace v)
      (hstore.forgets (.refl _) fun k hk q hq => ?_) ho
    obtain rfl : k = 0 := by omega
    cases point with
    | none => cases hq
    | some p => exact hq

/-- **A bulk copy that is a hook.** -/
theorem keeps_arrayCopy : elementWatch.Keeps (.hook .arrayCopy) :=
  keeps_of_wp fun b h hactive hh method u inUse => by
    obtain ⟨w, L, stack⟩ := b
    simp only [Work.perform, Work.hook, bind_assoc, Action.wp_bind, Work.wp_popMany]
    split
    · trivial
    rw [← Action.wp_bind]
    show Wp _
      (fun _ (b' : Bench) => (h.add (w.copied true (stack.take 5).reverse)).Agrees b'.world) _ _
    generalize (stack.take 5).reverse = args
    rcases args with _ | ⟨s, _ | ⟨p, _ | ⟨t, _ | ⟨tp, _ | ⟨n, _ | _⟩⟩⟩⟩⟩
    case cons.cons.cons.cons.cons.nil =>
      simp only [Work.copyArray, Work.copyArrayBy, bind_assoc]
      refine Work.wp_fromHeap_bind fun source hs => Work.wp_fromHeap_bind fun target ht =>
        Work.wp_fromHeap_bind fun position hp => Work.wp_fromHeap_bind fun targetPosition htp =>
        Work.wp_fromHeap_bind fun length hn => Work.wp_changeHeap_bind fun heap hcopy =>
        Work.wp_tracking_bind fun alive => Work.wp_tracking_bind fun alive' => ?_
      obtain rfl := Heap.target_eq_ok hs
      obtain rfl := Heap.target_eq_ok ht
      obtain rfl := Heap.int_eq_ok hp
      obtain rfl := Heap.int_eq_ok htp
      obtain rfl := Heap.int_eq_ok hn
      obtain ⟨elem, values, targetElem, targetValues, hsource, htarget, hheap⟩ :=
        Heap.overwrites_copyRange hcopy
      rw [World.copied_of_arrays hsource htarget]
      have hforgets := Store.forgets_trackerOf w.store alive source
      have hstill := Store.isActive_trackerOf hactive alive source
      have hstore := Store.setSource_records (hforgets.apart hh.apart) target
        (fun _ => hstill) alive' targetPosition.toInt.toNat length.toInt.toNat
        (w.store.trackerOf alive source).1 position.toInt.toNat
      exact hh.write hheap
        (hstore.forgets hforgets fun k _ q hq => Store.placeOf_of_trackerOf alive hq)
        ⟨_, _, Heap.get?_of_object htarget⟩
    all_goals trivial

/-- **A clone** with its sources. -/
theorem keeps_arrayClone : elementWatch.Keeps (.hook .arrayClone) :=
  keeps_of_wp fun b h hactive hh method u inUse => by
    obtain ⟨w, L, stack⟩ := b
    simp only [Work.perform, Work.hook, Work.cloneArray, Work.cloneArrayBy, bind_assoc]
    refine Work.wp_pop_bind fun v S hS => Work.wp_fromHeap_bind fun array ha =>
      Work.wp_fromHeap_bind fun x hx => ?_
    obtain rfl := Heap.target_eq_ok ha
    obtain rfl : stack = .ref array :: S := hS
    obtain ⟨elem, values, harray, rfl⟩ := Heap.duplicate_eq_ok hx
    simp only [after, harray]
    simp only [Work.allocate, Action.wp_bind, Work.wp_onHeap]
    rw [← Action.wp_bind]
    refine Work.wp_tracking_bind fun alive => ?_
    have hforgets := Store.forgets_trackerOf w.store alive array
    have hapart := (hh.allocate (.array elem values)).apart
    cases htracker : (w.store.trackerOf alive array).1 with
    | none => exact hh.clone (hforgets.records hapart fun _ _ => hforgets.untracked hh.fresh)
    | some id =>
      simp only [bind_assoc]
      refine Work.wp_fromHeap_bind fun n hn => Work.wp_tracking_bind fun alive' => ?_
      obtain rfl : values.size = n := Except.ok.inj
        ((Heap.length_of_array (Heap.object_of_get? (w.get?_allocate _))).symm.trans hn)
      have hstore := Store.setSource_records (hforgets.apart hapart) w.heap.objects.nextId
        (fun _ => Store.isActive_trackerOf hactive alive array) alive' 0 values.size (some id) 0
      refine hh.clone (hstore.forgets hforgets fun k _ q hq => Store.placeOf_of_trackerOf alive ?_)
      rw [htracker, ← Nat.zero_add k]
      exact hq

theorem keeps_hook (hk : Hook) : elementWatch.Keeps (.hook hk) := by
  cases hk with
  | arrayStoreWithPoint t => exact keeps_arrayStoreWithPoint t
  | setFieldPoint key => exact keeps_setFieldPoint key
  | arrayCopy => exact keeps_arrayCopy
  | arrayClone => exact keeps_arrayClone
  | _ => exact keeps_spares trivial

end ElementHistory

namespace Woven.Covering

variable {v : Woven} {breakInterning : Bool} {k : Nat} {i : Insn} {f : Frame}

/-- An instruction of which weaving puts in no others, where it stands, was not replaced. -/
theorem not_replaced {j : Insn} (hj : j ∈ v.plan.block k i) (hi : v.method.insns[k]? = some i)
    (hadded : ¬i.Added j) (hlabel : j.label? = none) :
    i = j ∧ ∀ code, (k, code) ∉ v.plan.replaced := by
  rcases v.mem_block hi hj with ⟨rfl, hkept⟩ | h
  · refine ⟨rfl, fun code hcode => ?_⟩
    rcases hkept with hsome | hnone
    · simp [hlabel] at hsome
    · simpa using List.lookup_eq_none_iff.mp hnone _ hcode
  · exact absurd h hadded

/-- **Element stores** of woven code have no type whose elements are followed. -/
theorem arrayStore (hv : v.Covering breakInterning) (hi : v.method.insns[k]? = some i)
    (hf : v.frame? k = some f) {t : Ty} (ht : .arrayStore t ∈ v.plan.block k i) :
    ¬t.isTrackedElement := by
  intro htracked
  obtain ⟨rfl, hnone⟩ := not_replaced ht hi (by intro h; rcases h with ⟨⟨⟩⟩) rfl
  have haction : Site.action? v.method breakInterning f (.arrayStore t) =
      some (.arrayStore t (f.top 0)) := by simp [Site.action?, htracked]
  obtain ⟨code, hcode⟩ := hv.covers hi hf haction
  exact hnone code hcode

/-- **Calls** of woven code are no bulk copies between arrays that both are seen to be of bytes or
both of chars, and no clones of arrays whose elements are followed. -/
theorem invoke (hv : v.Covering breakInterning) (hi : v.method.insns[k]? = some i)
    (hf : v.frame? k = some f) {m : MethodRef} (hm : .invoke m ∈ v.plan.block k i) :
    i = .invoke m ∧ (Carrier.isArrayCopy m → ¬Site.copiesTracked (f.top 4) (f.top 2)) ∧
      (¬Carrier.isArrayCopy m → Carrier.clonedArray? m = none) := by
  obtain ⟨rfl, hnone⟩ := not_replaced hm hi (by intro h; rcases h with ⟨⟨⟩⟩) rfl
  refine ⟨rfl, fun hcopy htracked => ?_, fun hcopy => ?_⟩
  · have haction : Site.action? v.method breakInterning f (.invoke m) = some .arrayCopy := by
      simp [Site.action?, hcopy, htracked]
    obtain ⟨code, hcode⟩ := hv.covers hi hf haction
    exact hnone code hcode
  · by_contra hclone
    have haction : Site.action? v.method breakInterning f (.invoke m) = some .arrayClone := by
      simp [Site.action?, hcopy, Option.isSome_iff_ne_none.mpr hclone]
    obtain ⟨code, hcode⟩ := hv.covers hi hf haction
    exact hnone code hcode

end Woven.Covering

namespace ElementHistory

variable {h : ElementHistory} {w : World} {i : Insn} {b : Bench} {inUse : Thunk (List Value)}

/-- **Every instruction**, as long as elements that are followed are stored by hooks. -/
theorem keeps (hstore : ∀ t, i = .arrayStore t → ¬t.isTrackedElement) : elementWatch.Keeps i := by
  cases i with
  | newArray t => exact keeps_newArray t
  | arrayStore t => exact keeps_arrayStore (hstore t rfl)
  | putField fd => exact keeps_putField fd
  | hook hk => exact keeps_hook hk
  | _ => exact keeps_spares trivial

/-! ## 2. Runs -/

/-- **The library's bulk copy**, noted when it was called. -/
theorem Agrees.arrayCopy {key : String} {args : List Value} {record : Option Nat}
    (hh : (h.add (w.copied false args)).Agrees w) :
    Wp (Native.arrayCopy ⟨key, args, record⟩) (fun _ w' => (h.add (w.copied false args)).Agrees w')
      (fun _ _ => True) w := by
  unfold Native.arrayCopy
  refine NativeCall.wp_target_bind fun source h₀ => NativeCall.wp_target_bind fun target h₂ =>
    NativeCall.wp_int_bind fun position h₁ => NativeCall.wp_int_bind fun targetPosition h₃ =>
    NativeCall.wp_int_bind fun length h₄ => ?_
  obtain ⟨rest, rfl⟩ : ∃ rest, args = .ref source :: .int position :: .ref target ::
      .int targetPosition :: .int length :: rest := by
    rcases args with _ | ⟨_, _ | ⟨_, _ | ⟨_, _ | ⟨_, _ | ⟨_, rest⟩⟩⟩⟩⟩ <;> simp_all
  rw [Action.wp_bind, Action.wp_inspect]
  split
  · rename_i heap hcopy
    obtain ⟨elem, values, targetElem, targetValues, hsource, htarget, hheap⟩ :=
      Heap.overwrites_copyRange hcopy
    rw [World.copied_of_arrays hsource htarget] at hh ⊢
    refine hh.leave hheap fun i hle hlt e he => ?_
    rw [lastWrite_add_range, if_pos ⟨rfl, hle, hlt⟩] at he
    rw [← Option.some.inj he]
    rfl
  · trivial

/-- **The built-in natives.** -/
theorem Agrees.native {e : String × Native} (he : e ∈ Native.builtIn) {args : List Value}
    {record : Option Nat} (hh : h.Agrees w)
    (hcopy : e.1 = copyKey → ∃ h₀ : ElementHistory, h = h₀.add (w.copied false args)) :
    Wp (e.2.body ⟨e.1, args, record⟩) (fun _ w' => h.Agrees w') (fun _ _ => True) w := by
  have hlook {body : NativeBody} {key : String}
        (hbody : body = Native.charAt ∨ body = Native.length ∨
      body = Native.equals ∨ body = Native.toUnsignedInt) :
      Wp (body ⟨key, args, record⟩) (fun _ w' => h.Agrees w') (fun _ _ => True) w := by
    rcases hbody with rfl | rfl | rfl | rfl <;>
      simp only [Native.charAt, Native.length, Native.equals, Native.toUnsignedInt, NativeCall.int,
        NativeCall.target, NativeCall.arg, Action.wp_bind, Action.wp_inspect, Action.wp_pure] <;>
      repeat' split
    all_goals trivial
  have hclone {key : String} :
      Wp (Native.clone ⟨key, args, record⟩) (fun _ w' => h.Agrees w') (fun _ _ => True) w := by
    unfold Native.clone
    refine NativeCall.wp_target_bind fun o _ => ?_
    rw [Action.wp_bind, Action.wp_inspect]
    split
    · exact hh.allocate _
    · trivial
  simp only [Native.builtIn, List.mem_cons, List.not_mem_nil, or_false] at he
  rcases he with rfl | rfl | rfl | rfl | rfl | rfl | rfl | rfl
  · exact hlook (by simp)
  · exact hlook (by simp)
  · exact hlook (by simp)
  · exact hlook (by simp)
  · obtain ⟨h₀, rfl⟩ := hcopy rfl
    exact hh.arrayCopy
  · exact hclone
  · exact hclone
  · exact hclone

theorem lasts {p : Program} (hnatives : ∀ e ∈ p.natives, e ∈ Native.builtIn) :
    elementWatch.Lasts p where
  null := keeps_spares trivial
  store _ := keeps_spares trivial
  claim _ := keeps_spares trivial
  block hv hi hf b h hh := by
    refine Woven.along_block hi hf (fun j hj => keeps fun t ht => ?_) b h hh
    subst ht
    exact hv.arrayStore hi hf hj
  native {m n b h} hn _ hh record signature := by
    refine Agrees.native (hnatives _ (mem_of_lookup hn)) ((robust_agrees _).claim signature hh)
      fun hkey => ⟨h, ?_⟩
    show h.after (.invoke m) b = _
    unfold after
    simp only
    rw [if_pos hkey]
    rfl

end ElementHistory

/-! ## 3. The last write -/

/-- A world in which no array has a tracker yet. -/
structure World.Untracked (w : World) : Prop where
  ledger : w.store.ledger.Reachable
  known : ∀ o id, w.store.objects.get? o = some id →
    (∃ t, w.store.ledger.tracker? id = some t) ∧ ∃ x, w.heap.objects.get? o = some x
  arrays : ∀ o, w.heap.IsArray o → w.store.objects.get? o = none

theorem World.Untracked.agrees {w : World} (hw : w.Untracked) : ElementHistory.Agrees ⟨[]⟩ w where
  apart := {
    ledger := hw.ledger
    known := fun o id hid => (hw.known o id hid).1
    own := fun o id ho hid => by
      rw [hw.arrays o ho] at hid
      cases hid }
  known o id hid := (hw.known o id hid).2
  written _ he := by cases he
  places o ho i q hq := by simp [Store.placeOf, hw.arrays o ho] at hq
  values _ _ _ _ _ _ he := by cases he
  left _ he := by cases he

/-- A write that weaving follows: an element store of a type whose elements are followed, a bulk
copy that was made a hook, or a clone. -/
def ElementWrite.Followed (e : ElementWrite) : Prop :=
  (∀ t, e.way = .store t → t.isTrackedElement) ∧ (e.way = .copy → e.recorded.isSome)

/-- **The hook** gives nothing but what is known of the element. -/
theorem Work.perform_elementPoint {w : World} (hflat : w.store.ledger.Flat) (method : String)
    (u : RunError) (inUse : Thunk (List Value)) (L : Array Value) (n : Int32) (o : ObjectId)
    (S : List Value) :
    Wp (perform method u inUse (.hook .elementPoint))
      (fun t b => t = .next ∧ ∃ point, b.stack = .ofPoint point :: S ∧
        ∀ q, point = some q → w.store.placeOf o n.toInt.toNat = some ⟨q.tracker, q.index⟩)
      (fun _ _ => True) ⟨w, L, .int n :: .ref o :: S⟩ := by
  simp only [perform, hook, take, popInt, elementPoint, elementPointBy, Action.wp_bind, wp_pop_cons,
    wp_fromHeap, Heap.int, Heap.reference]
  by_cases hn : n < 0
  · rw [if_pos hn]
    exact ⟨rfl, none, rfl, by simp⟩
  · rw [if_neg hn]
    exact ⟨rfl, _, rfl, fun q hq => Store.placeOf_of_pointAt hflat hq⟩

/-- **The point of an element is that of its last write.**  Consider a run of woven methods and
built-in natives, with tracking on, from a world in which no array has a tracker yet.  Whenever a
hook looks up an element of an array, it gives a point or null: null, if the element was not written
yet.  If weaving follows writes like the last one, then the array still holds the value of that
write, and a point that the hook gives is where this value was recorded to come from: so it gives
null if the value was recorded to come from nowhere known. -/
theorem Program.elementPoint_of_lastWrite {p : Program} {limits : MachineSettings} {w : World}
    {s s' : RunState} {h : ElementHistory} (hnatives : ∀ e ∈ p.natives, e ∈ Native.builtIn)
    (hw : w.Untracked)
    (hrun : elementWatch.toChronicle.Run p limits
      (fun s => s.current.routine.FromWeaving ∧ s.world.store.isActive = true) w s h)
    (hi : s.insn? = some (.hook .elementPoint)) {n : Int32} {o : ObjectId} {S : List Value}
    (hstack : s.current.stack = .int n :: .ref o :: S) {elem : Ty} {values : Array Value}
    (ho : s.world.heap.objects.get? o = some (.array elem values))
    (hs : p.step limits s (.hook .elementPoint) = .running s') :
    ∃ point, s'.current.stack = .ofPoint point :: S ∧
      (h.lastWrite o n.toInt.toNat = none → point = none) ∧
      ∀ e, h.lastWrite o n.toInt.toNat = some e → e.Followed →
        values[n.toInt.toNat]? = some e.value ∧ ∃ recorded, e.recorded = some recorded ∧
          ∀ q, point = some q → recorded = some ⟨q.tracker, q.index⟩ := by
  have hagrees := (ElementHistory.lasts hnatives).shows hw.agrees
    (fun s hs => ⟨hs.1, fun _ _ => hs.2⟩) hrun hi rfl
  obtain ⟨w', ⟨r, pc, L, stack⟩, callers⟩ := s
  obtain rfl : stack = .int n :: .ref o :: S := hstack
  have hhook := Work.perform_elementPoint hagrees.apart.ledger.flat r.key (.stackUnderflow r.key pc)
    (RunState.inUse ⟨r, pc, L, .int n :: .ref o :: S⟩ callers) L n o S
  rcases hout : (Work.perform r.key (.stackUnderflow r.key pc)
    (RunState.inUse ⟨r, pc, L, .int n :: .ref o :: S⟩ callers) (.hook .elementPoint)).outcome
    ⟨w', L, .int n :: .ref o :: S⟩ with ⟨outcome, b⟩
  cases outcome with
  | error e =>
    rw [Program.step_of_error (a := ⟨r, pc, L, .int n :: .ref o :: S⟩) hout] at hs
    cases hs
  | ok t =>
    rw [Program.step_of_ok (a := ⟨r, pc, L, .int n :: .ref o :: S⟩) hout] at hs
    obtain ⟨rfl, point, hpoint, hplace⟩ := hhook.of_ok hout
    obtain rfl := Progress.running.inj hs
    have hlast (q : Point) (hq : point = some q) :=
      hagrees.places o ⟨elem, values, ho⟩ n.toInt.toNat _ (hplace q hq)
    refine ⟨point, hpoint, fun hnone => ?_, fun e he hfollowed => ?_⟩
    · cases point with
      | none => rfl
      | some q =>
        obtain ⟨e, he, -⟩ := hlast q rfl
        rw [hnone] at he
        cases he
    · have hrecorded : e.recorded.isSome := by
        by_contra hnone
        have hnone : e.recorded = none := by simpa using hnone
        rcases hagrees.left e (ElementHistory.object_of_lastWrite he).1 hnone with
          hcopy | ⟨t, ht, huntracked⟩
        · exact absurd (hfollowed.2 hcopy) (by simp [hnone])
        · exact huntracked (hfollowed.1 t ht)
      obtain ⟨recorded, hr⟩ := Option.isSome_iff_exists.mp hrecorded
      refine ⟨hagrees.values o elem values ho _ e he hrecorded, recorded, hr, fun q hq => ?_⟩
      obtain ⟨e', he', hsame⟩ := hlast q hq
      obtain rfl := Option.some.inj (he.symm.trans he')
      exact Option.some.inj (hr.symm.trans (hsame hrecorded))

/-! ## 4. Three methods -/

deriving instance DecidableEq for Table, Conversation, Tracker, Ledger

namespace Trial

/-- A run of the woven method comes to a hook that gives a point for an element of an array, which
still holds the value of its last write. -/
def LooksUp (x : Trial) (o : ObjectId) (n : Int32) (e : ElementWrite) (q : Point) : Prop :=
  ∃ m store s s' h S, x.woven? = some (m, store) ∧ ({ x.world with store } : World).Untracked ∧
    elementWatch.toChronicle.Run (furnished m) ⟨8, 1000⟩
      (fun s => s.current.routine.FromWeaving ∧
        s.world.store.isActive = true) { x.world with store } s h ∧
    s.insn? = some (.hook .elementPoint) ∧ s.current.stack = .int n :: .ref o :: S ∧
    (furnished m).step ⟨8, 1000⟩ s (.hook .elementPoint) = .running s' ∧
    s'.current.stack = .point q :: S ∧ h.lastWrite o n.toInt.toNat = some e ∧
    s.world.heap.load o n = .ok e.value

/-- Where the run stands after that many steps and one that looks up an element. -/
def look? (x : Trial) (steps : Nat) : Option (RunState × RunState × ElementHistory) :=
  x.woven?.bind fun (m, _) => (x.history? elementWatch.toChronicle steps).bind fun (s, h) =>
    match (furnished m).step ⟨8, 1000⟩ s (.hook .elementPoint) with
    | .running s' => some (s, s', h)
    | .ended _ => none

/-- A ledger with the table of one class. -/
def tableLedger (className text : String) : Ledger :=
  (Ledger.empty.add (.new .origin (Utf8.encode text.toList) (some className))).2

theorem looksUp_of_look? {x : Trial} {o : ObjectId} {n : Int32} {e : ElementWrite} {q : Point}
    (steps : Nat) (className text : String) (S : List Value)
    (hstore : x.woven?.map (fun r => (r.2.ledger, r.2.objects.entries)) =
      some (tableLedger className text, []))
    (hlook : (x.look? steps).map (fun r => ((r.1.insn?, r.1.current.stack), r.2.1.current.stack,
        r.2.2.lastWrite o n.toInt.toNat, (r.1.world.heap.load o n).toOption)) =
      some ((some (.hook .elementPoint), .int n :: .ref o :: S), .point q :: S, some e,
        some e.value)) :
    x.LooksUp o n e q := by
  obtain ⟨⟨s, s', h⟩, hlook, hseen⟩ := Option.map_eq_some_iff.mp hlook
  simp only [Prod.mk.injEq] at hseen
  obtain ⟨⟨hi, hstack⟩, hstack', hlast, hload⟩ := hseen
  obtain ⟨⟨m, store⟩, hwoven, hlook⟩ := Option.bind_eq_some_iff.mp hlook
  obtain ⟨⟨s₀, h₀⟩, hhistory, hlook⟩ := Option.bind_eq_some_iff.mp hlook
  simp only at hlook
  split at hlook
  · rename_i s₁ hstep
    obtain ⟨rfl, rfl, rfl⟩ : s₀ = s ∧ s₁ = s' ∧ h₀ = h := by simpa using hlook
    obtain ⟨m', store', hwoven', hrun⟩ := run_of_history? hhistory
    obtain ⟨rfl, rfl⟩ : m = m' ∧ store = store' := by simpa [hwoven] using hwoven'
    rw [hwoven] at hstore
    obtain ⟨hledger, hobjects⟩ := Prod.mk.inj (Option.some.inj hstore)
    have hnone (o : ObjectId) : store.objects.get? o = none := by
      rw [WeakMap.get?, hobjects]
      rfl
    refine ⟨m, store, s₀, s₁, h₀, S, hwoven, ⟨?_, fun o id hid => ?_, fun o _ => hnone o⟩,
      hrun, hi, hstack, hstep, hstack', hlast, ?_⟩
    · show store.ledger.Reachable
      rw [hledger]
      exact .add .empty _ _ _
    · rw [hnone o] at hid
      cases hid
    · cases hvalue : s₀.world.heap.load o n with
      | ok v => simpa [hvalue, Except.toOption] using hload
      | error e => simp [hvalue, Except.toOption] at hload
  · cases hlook

end Trial

/-- Stores a literal in an array, copies it to another one, and stores it there again. -/
def passLetter : Trial where
  method := ⟨"demo/Pass", "run", ⟨[.array .char, .array .char], .void⟩, true, 2, 0,
    [.load 0, .const (.int 0), .const (.int 120), .arrayStore .char,
      .load 0, .const (.int 0), .load 1, .const (.int 0), .const (.int 1),
      .invoke ⟨.static, "java/lang/System", "arraycopy",
        ⟨[.object "java/lang/Object", .int, .object "java/lang/Object", .int, .int], .void⟩⟩,
      .load 1, .const (.int 0), .load 1, .const (.int 0), .arrayLoad .char,
      .arrayStore .char, .ret .void]⟩
  world := ⟨((Heap.empty.allocate (.charArray "a")).2.allocate (.charArray "b")).2,
    .empty .default, [], [], []⟩
  args := [.ref 1, .ref 2]

theorem passLetter_looksUp :
    passLetter.LooksUp 2 0 ⟨2, 0, .copy, .int 120, some (some ⟨1, 44⟩)⟩ ⟨1, 44, 1⟩ :=
  Trial.looksUp_of_look? 18 "class demo.Pass" "class demo.Pass\nvoid run(char[], char[]):\n  x\n"
    [.int 0, .ref 2, .int 0, .ref 2] (by decide +kernel) (by decide +kernel)

/-- The value that was copied comes with the point of the literal, and with no other. -/
theorem passLetter_elementPoint :
    ∃ m store s s' h S, passLetter.woven? = some (m, store) ∧
      elementWatch.toChronicle.Run (Trial.furnished m) ⟨8, 1000⟩
        (fun s => s.current.routine.FromWeaving ∧ s.world.store.isActive = true)
        { passLetter.world with store } s h ∧
      s.insn? = some (.hook .elementPoint) ∧ s.current.stack = .int 0 :: .ref 2 :: S ∧
      (Trial.furnished m).step ⟨8, 1000⟩ s (.hook .elementPoint) = .running s' ∧
      h.lastWrite 2 0 = some ⟨2, 0, .copy, .int 120, some (some ⟨1, 44⟩)⟩ ∧
      s'.current.stack = .point ⟨1, 44, 1⟩ :: S ∧
      ∃ point, s'.current.stack = .ofPoint point :: S ∧
        ∀ q, point = some q → (⟨1, 44⟩ : Place) = ⟨q.tracker, q.index⟩ := by
  obtain ⟨m, store, s, s', h, S, hwoven, hw, hrun, hi, hstack, hstep, hstack', hlast, hload⟩ :=
    passLetter_looksUp
  obtain ⟨elem, values, ho⟩ := Heap.array_of_load hload
  obtain ⟨point, hpoint, -, hfollowed⟩ := Program.elementPoint_of_lastWrite (fun _ h => h) hw
    hrun hi hstack (Heap.get?_of_object ho) hstep
  obtain ⟨-, recorded, hr, hplace⟩ := hfollowed _ hlast ⟨fun t ht => (by cases ht), fun _ => rfl⟩
  refine ⟨m, store, s, s', h, S, hwoven, hrun, hi, hstack, hstep, hlast, hstack', point, hpoint,
    fun q hq => ?_⟩
  exact Option.some.inj (Option.some.inj (hr.trans (congrArg some (hplace q hq))))

/-- Stores a literal in an array of ints, copies other ints over it, and stores what is there as a
char. -/
def moveCodes : Trial where
  method := ⟨"demo/Move", "run", ⟨[.array .int, .array .int, .array .char], .void⟩, true, 3, 0,
    [.load 0, .const (.int 0), .const (.int 120), .arrayStore .int,
      .load 1, .const (.int 0), .load 0, .const (.int 0), .const (.int 1),
      .invoke ⟨.static, "java/lang/System", "arraycopy",
        ⟨[.object "java/lang/Object", .int, .object "java/lang/Object", .int, .int], .void⟩⟩,
      .load 2, .const (.int 0), .load 0, .const (.int 0), .arrayLoad .int, .convert .int .char,
      .arrayStore .char, .ret .void]⟩
  world :=
    ⟨(((Heap.empty.allocate (.newArray .int 1)).2.allocate (.array .int #[.int 97])).2.allocate
    (.newArray .char 1)).2, .empty .default, [], [], []⟩
  args := [.ref 1, .ref 2, .ref 3]

/-- Stores a literal in an array of chars, then another number as if it were one of shorts, and
copies what is there to another array. -/
def narrowLetter : Trial where
  method := ⟨"demo/Narrow", "run", ⟨[.array .char, .array .char], .void⟩, true, 2, 0,
    [.load 0, .const (.int 0), .const (.int 120), .arrayStore .char,
      .load 0, .const (.int 0), .const (.int 97), .arrayStore .short,
      .load 1, .const (.int 0), .load 0, .const (.int 0), .arrayLoad .char,
      .arrayStore .char, .ret .void]⟩
  world := ⟨((Heap.empty.allocate (.newArray .char 1)).2.allocate (.newArray .char 1)).2,
    .empty .default, [], [], []⟩
  args := [.ref 1, .ref 2]

/-- **Points of elements can be stale.**  Neither the call that copies ints nor the store of a short
is replaced, so the hook before the read gives the point of the literal that stood there before. -/
theorem moveCodes_stalePoint :
    moveCodes.LooksUp 1 0 ⟨1, 0, .copy, .int 97, none⟩ ⟨1, 50, 1⟩ ∧
      narrowLetter.LooksUp 1 0 ⟨1, 0, .store .short, .int 97, none⟩ ⟨1, 46, 1⟩ :=
  ⟨Trial.looksUp_of_look? 18 "class demo.Move"
    "class demo.Move\nvoid run(int[], int[], char[]):\n  x\n"
      [.int 0, .ref 1, .int 0, .ref 3] (by decide +kernel) (by decide +kernel),
    Trial.looksUp_of_look? 16 "class demo.Narrow"
    "class demo.Narrow\nvoid run(char[], char[]):\n  x\n"
      [.int 0, .ref 1, .int 0, .ref 2] (by decide +kernel) (by decide +kernel)⟩

end Provenance
