/-
# What hooks do to the world

A hook touches the provenance store and nothing else, except where it stands for an instruction
that changes the heap.  The store may forget points, but it knows every call record it has given
out, by the signature the record was made for (`Store.Remembers`); so a program that was the same
as another one before a hook is so after it (`World.Same.follows`).

Each hook is described by what it takes off the stack and what it leaves there.
-/
import Provenance.Proofs.StraightLine

namespace Provenance

/-! ## 1. The store remembers its records -/

namespace Table

variable {α : Type}

/-- The next number is not given out yet. -/
theorem get?_nextId (t : Table α) : t.get? t.nextId = none := by
  simp [get?, nextId]

end Table

theorem lookup_cons_eq {α β : Type} [DecidableEq α] (k a : α) (b : β) (l : List (α × β)) :
    ((k, b) :: l).lookup a = if a = k then some b else l.lookup a := by
  rw [List.lookup_cons]
  by_cases h : a = k
  · subst h
    simp
  · rw [if_neg h, beq_false_of_ne h]

/-- Keeping the entries of some keys. -/
theorem lookup_filter_eq {α β : Type} [DecidableEq α] (keep : α → Bool) (a : α) (l : List (α × β)) :
    (l.filter fun e => keep e.1).lookup a = if keep a then l.lookup a else none := by
  induction l with
  | nil => simp
  | cons e l ih =>
    obtain ⟨k, b⟩ := e
    rw [List.filter_cons]
    split <;> grind [lookup_cons_eq]

theorem WeakMap.get?_insert {α : Type} (m : WeakMap α) (o o' : ObjectId) (a : α) :
    (m.insert o a).get? o' = if o' = o then some a else m.get? o' := by
  obtain ⟨entries⟩ := m
  simp only [get?, insert]
  induction entries with
  | nil => simp [put, lookup_cons_eq]
  | cons e entries ih =>
    obtain ⟨k, b⟩ := e
    unfold put
    split <;> grind [lookup_cons_eq]

namespace Store

/-- A later store, which knows the records of the earlier one by the same signatures. -/
def Remembers (s s' : Store) : Prop :=
  ∀ id r, s.record? id = some r → ∃ r', s'.record? id = some r' ∧ r'.signature = r.signature

variable {s s' s'' : Store}

theorem Remembers.refl (s : Store) : s.Remembers s := fun _ r h => ⟨r, h, rfl⟩

theorem Remembers.trans (h : s.Remembers s') (h' : s'.Remembers s'') : s.Remembers s'' := by
  intro id r hr
  obtain ⟨r', hr', hsig⟩ := h id r hr
  obtain ⟨r'', hr'', hsig'⟩ := h' id r' hr'
  exact ⟨r'', hr'', hsig'.trans hsig⟩

theorem remembers_of_records (h : s'.records = s.records) : s.Remembers s' := by
  intro id r hr
  refine ⟨r, ?_, rfl⟩
  unfold record? at hr ⊢
  rwa [h]

/-- Records change only in their points. -/
theorem remembers_of_modify {id : Nat} {f : CallRecord → CallRecord}
    (hf : ∀ r, (f r).signature = r.signature) :
    s.Remembers { s with records := s.records.modify id f } := by
  intro j r hr
  unfold record? at hr ⊢
  rw [Table.get?_modify]
  split
  · exact ⟨f r, by simp [hr], hf r⟩
  · exact ⟨r, hr, rfl⟩

theorem createRecord_remembers (s : Store) (signature : String) :
    s.Remembers (s.createRecord signature).2 := by
  intro id r hr
  refine ⟨r, ?_, rfl⟩
  unfold record? createRecord at *
  simp only [Table.get?_add]
  rw [if_neg]
  · exact hr
  · rintro rfl
    simp [Table.get?_nextId] at hr

theorem setArg_remembers {id slot : Nat} {point : Option Point}
    (h : s.setArg id slot point = .ok s') : s.Remembers s' := by
  unfold setArg at h
  split at h
  · rw [← Except.ok.inj h]
    exact remembers_of_modify fun _ => rfl
  · exact absurd h (by simp)

theorem setReturned_remembers (s : Store) (id : Nat) (point : Option Point) :
    s.Remembers (s.setReturned id point) := remembers_of_modify fun _ => rfl

theorem claim_records (s : Store) (signature : String) :
    (s.claim signature).2.records = s.records := by
  unfold claim
  simp only
  split
  · rfl
  · split <;> rfl

/-- Only the ledger, the trackers of objects and the count of operations may be others. -/
def OnlyTracks (s s' : Store) : Prop :=
  ∃ ledger objects operations, s' = { s with ledger, objects, operations }

namespace OnlyTracks

theorem refl (s : Store) : s.OnlyTracks s := ⟨_, _, _, rfl⟩

theorem trans (h : s.OnlyTracks s') (h' : s'.OnlyTracks s'') : s.OnlyTracks s'' := by
  obtain ⟨_, _, _, rfl⟩ := h
  obtain ⟨ledger, objects, operations, rfl⟩ := h'
  exact ⟨ledger, objects, operations, rfl⟩

theorem records (h : s.OnlyTracks s') : s'.records = s.records := by
  obtain ⟨_, _, _, rfl⟩ := h
  rfl

theorem fields (h : s.OnlyTracks s') : s'.fields = s.fields := by
  obtain ⟨_, _, _, rfl⟩ := h
  rfl

end OnlyTracks

theorem onlyTracks_tick (s : Store) (alive : ObjectId → Bool) : s.OnlyTracks (s.tick alive) := by
  unfold tick
  split
  · exact .refl s
  · simp only
    split <;> exact ⟨_, _, _, rfl⟩

theorem onlyTracks_trackerOf (s : Store) (alive : ObjectId → Bool) (o : ObjectId) :
    s.OnlyTracks (s.trackerOf alive o).2 := by
  unfold trackerOf
  split
  · exact onlyTracks_tick s alive
  · exact .refl s

theorem onlyTracks_ensureTracker (s : Store) (alive : ObjectId → Bool) (o : ObjectId) :
    s.OnlyTracks (s.ensureTracker alive o).2 := by
  unfold ensureTracker
  split
  · split
    · exact onlyTracks_tick s alive
    · exact OnlyTracks.trans ⟨_, _, _, rfl⟩ (onlyTracks_tick _ alive)
  · exact .refl s

theorem onlyTracks_onLedger {f : Ledger → Except StoreError Ledger} (h : s.onLedger f = .ok s') :
    s.OnlyTracks s' := by
  unfold onLedger at h
  split at h
  · rw [← Except.ok.inj h]
    exact ⟨_, _, _, rfl⟩
  · exact absurd h (by simp)

/-- A change of the ledger that needs the tracker of an object, which is made if there is none. -/
def onTracker (s : Store) (alive : ObjectId → Bool) (o : ObjectId)
    (f : TrackerId → Ledger → Except StoreError Ledger) : Except StoreError Unit × Store :=
  match s.ensureTracker alive o with
  | (none, s) => (.ok (), s)
  | (some id, s) =>
    match s.onLedger (f id) with
    | .ok s => (.ok (), s)
    | .error e => (.error e, s)

theorem onlyTracks_onTracker (s : Store) (alive : ObjectId → Bool) (o : ObjectId)
    (f : TrackerId → Ledger → Except StoreError Ledger) :
    s.OnlyTracks (s.onTracker alive o f).2 := by
  have hensure := onlyTracks_ensureTracker s alive o
  unfold onTracker
  generalize s.ensureTracker alive o = r at hensure ⊢
  obtain ⟨id?, u⟩ := r
  cases id? with
  | none => exact hensure
  | some id =>
    simp only
    cases hl : u.onLedger (f id) with
    | ok u' => exact hensure.trans (onlyTracks_onLedger hl)
    | error e => exact hensure

section Recording

variable (s : Store) (alive : ObjectId → Bool) (o : ObjectId) (index length : Nat)
  (source : Option TrackerId) (sourceIndex : Nat)

theorem setSource_eq :
    s.setSource alive o index length source sourceIndex =
      match source with
      | some _ => s.onTracker alive o fun id l => l.setSource id index length source sourceIndex
      | none =>
        match s.trackerOf alive o with
        | (none, s) => (.ok (), s)
        | (some _, s) => s.onTracker alive o fun id l =>
            l.setSource id index length none sourceIndex := by
  cases source <;> rfl

/-- **Recording** changes the tracker of the object.  To record that no source is known it is looked
up first, and if there is none, nothing else happens. -/
theorem setSource_cases :
    s.setSource alive o index length source sourceIndex =
        (s.onTracker alive o fun id l => l.setSource id index length source sourceIndex) ∨
    source = none ∧ ((s.trackerOf alive o).1 = none ∧
        s.setSource alive o index length source sourceIndex = (.ok (), (s.trackerOf alive o).2) ∨
      s.setSource alive o index length source sourceIndex = (s.trackerOf alive o).2.onTracker alive
        o fun id l => l.setSource id index length source sourceIndex) := by
  rw [setSource_eq]
  cases source with
  | some id => exact .inl rfl
  | none =>
    refine .inr ⟨rfl, ?_⟩
    cases s.trackerOf alive o with
    | mk id? u =>
      cases id? with
      | none => exact .inl ⟨rfl, rfl⟩
      | some id => exact .inr rfl

theorem onlyTracks_setSource :
    s.OnlyTracks (s.setSource alive o index length source sourceIndex).2 := by
  have htracker := onlyTracks_trackerOf s alive o
  obtain h | ⟨-, ⟨-, h⟩ | h⟩ := setSource_cases s alive o index length source sourceIndex
  · rw [h]
    exact onlyTracks_onTracker s alive o _
  · rw [h]
    exact htracker
  · rw [h]
    exact htracker.trans (onlyTracks_onTracker _ alive o _)

end Recording

theorem onlyTracks_pointAt (s : Store) (alive : ObjectId → Bool) (o : ObjectId) (index : Nat) :
    s.OnlyTracks (s.pointAt alive o index).2 := by
  unfold pointAt
  have htracker := onlyTracks_trackerOf s alive o
  generalize s.trackerOf alive o = r at htracker ⊢
  obtain ⟨id?, u⟩ := r
  cases id? <;> exact htracker

theorem setFieldPoint_records (s : Store) (o : ObjectId) (key : String) (point : Option Point) :
    (s.setFieldPoint o key point).records = s.records := by
  unfold setFieldPoint
  split
  · cases point with
    | some p => rfl
    | none =>
      simp only
      split <;> rfl
  · rfl

end Store

/-! ## 2. Worlds in which only the store changed -/

/-- A later world with the same heap, in which the store remembers its records. -/
structure World.Follows (w w' : World) : Prop where
  heap : w'.heap = w.heap
  literals : w'.literals = w.literals
  store : w.store.Remembers w'.store

namespace World

variable {known : Nat → Prop} {w w' w'' : World}

theorem Follows.refl (w : World) : w.Follows w := ⟨rfl, rfl, .refl _⟩

theorem Follows.trans (h : w.Follows w') (h' : w'.Follows w'') : w.Follows w'' :=
  ⟨h'.heap.trans h.heap, h'.literals.trans h.literals, h.store.trans h'.store⟩

theorem follows_withStore {store : Store} (h : w.store.Remembers store) :
    w.Follows { w with store } := ⟨rfl, rfl, h⟩

/-- Texts do not change while the records do not. -/
theorem render_withStore {store : Store} (h : store.records = w.store.records)
    (t : Ty) (v : Value) :
    World.render { w with store } t v = w.render t v := by
  have hsignature : World.signatureOf { w with store } = w.signatureOf := by
    funext id
    simp only [World.signatureOf, Store.record?, h]
  unfold World.render
  rw [hsignature]

/-- Worlds that are the same stay so when only the store of the second changes. -/
theorem Same.follows (h : Same known w w') (h' : w'.Follows w'') : Same known w w'' := by
  refine ⟨h'.heap.trans h.heap, h'.literals.trans h.literals, h.within, fun id hid => ?_⟩
  obtain ⟨r, r', hr, hr', hsig⟩ := h.records id hid
  obtain ⟨r'', hr'', hsig'⟩ := h'.store id r' hr'
  exact ⟨r, r'', hr, hr'', hsig'.trans hsig⟩

end World

/-! ## 3. Hooks, one by one -/

namespace Work

open Provenance.Action (Wp)

variable {w : World} {L : Array Value} {S : List Value} {E : RunError → Bench → Prop}
  {inUse : Thunk (List Value)}

/-- A bench after a hook that left these values on a stack, and changed only the store. -/
structure Left (w : World) (L : Array Value) (values S : List Value) (b : Bench) : Prop where
  world : w.Follows b.world
  locals : b.locals = L
  stack : b.stack = values ++ S

theorem left_withStore {store : Store} {values stack : List Value} (h : w.store.Remembers store)
    (hstack : stack = values ++ S) : Left w L values S ⟨{ w with store }, L, stack⟩ :=
  ⟨World.follows_withStore h, rfl, hstack⟩

/-- A hook leaves a point. -/
def LeftPoint (w : World) (L : Array Value) (S : List Value) (b : Bench) : Prop :=
  ∃ point, Left w L [.ofPoint point] S b

/-- A hook leaves a call record, or null in place of one. -/
def LeftRecord (w : World) (L : Array Value) (S : List Value) (b : Bench) : Prop :=
  ∃ record, Left w L [.ofRecord record] S b

@[simp] theorem point_ofPoint (h : Heap) (p : Option Point) : h.point (.ofPoint p) = .ok p := by
  cases p <;> rfl

@[simp] theorem record_ofRecord (h : Heap) (r : Option Nat) : h.record (.ofRecord r) = .ok r := by
  cases r <;> rfl

theorem wp_constantPoint (c : ClassConstant) :
    Wp (hook inUse (.constantPoint c)) (fun _ => LeftPoint w L S) E ⟨w, L, S⟩ :=
  ⟨_, left_withStore (.refl _) rfl⟩

theorem wp_invocationCreate (signature : String) :
    Wp (hook inUse (.invocationCreate signature)) (fun _ => LeftRecord w L S) E ⟨w, L, S⟩ := by
  unfold hook
  simp only [Action.wp_bind, wp_onStore, wp_push]
  by_cases h : w.store.isActive
  · simp only [h, if_true]
    exact ⟨_, left_withStore (w.store.createRecord_remembers signature) rfl⟩
  · simp only [h, Bool.false_eq_true, if_false]
    exact ⟨_, left_withStore (.refl _) rfl⟩

theorem wp_invocationStart (signature : String) :
    Wp (hook inUse (.invocationStart signature)) (fun _ => LeftRecord w L S) E ⟨w, L, S⟩ :=
  ⟨_, left_withStore (Store.remembers_of_records (w.store.claim_records signature)) rfl⟩

theorem wp_invocationArgPoint (slot : Nat) (record : Option Nat) :
    Wp (hook inUse (.invocationArgPoint slot)) (fun _ => LeftPoint w L S) E
      ⟨w, L, .ofRecord record :: S⟩ := by
  cases record with
  | none => exact ⟨none, left_withStore (.refl _) rfl⟩
  | some id => exact ⟨w.store.argPoint id slot, left_withStore (.refl _) rfl⟩

theorem wp_invocationReturnPoint (record : Option Nat) :
    Wp (hook inUse .invocationReturnPoint) (fun _ => LeftPoint w L S) E
      ⟨w, L, .ofRecord record :: S⟩ := by
  cases record with
  | none => exact ⟨none, left_withStore (.refl _) rfl⟩
  | some id => exact ⟨w.store.returnedPoint id, left_withStore (.refl _) rfl⟩

theorem wp_invocationSetArg (slot : Nat) (point : Option Point) (record : Option Nat) :
    Wp (hook inUse (.invocationSetArg slot)) (fun _ => Left w L [.ofRecord record] S) E
      ⟨w, L, .ofPoint point :: .ofRecord record :: S⟩ := by
  unfold hook take
  cases record with
  | none => exact left_withStore (.refl _) rfl
  | some id =>
    simp only [Action.wp_bind, wp_pop_cons, wp_fromHeap, record_ofRecord, point_ofPoint,
      wp_onStore, wp_push]
    cases h : w.store.setArg id slot point with
    | ok s => exact left_withStore (Store.setArg_remembers h) rfl
    | error e => exact left_withStore (.refl _) rfl

theorem wp_invocationCalling (record : Option Nat) :
    Wp (hook inUse .invocationCalling) (fun _ => Left w L [.ofRecord record] S) E
      ⟨w, L, .ofRecord record :: S⟩ := by
  cases record with
  | none => exact left_withStore (.refl _) rfl
  | some id =>
    exact left_withStore (Store.remembers_of_records rfl) rfl

theorem wp_invocationReturning (point : Option Point) (record : Option Nat) :
    Wp (hook inUse .invocationReturning) (fun _ => Left w L [] S) E
      ⟨w, L, .ofPoint point :: .ofRecord record :: S⟩ := by
  unfold hook take takeRecord
  cases record with
  | none => exact left_withStore (.refl _) rfl
  | some id =>
    simp only [Action.wp_bind, wp_pop_cons, wp_fromHeap, record_ofRecord, point_ofPoint, take,
      wp_onStore]
    exact left_withStore (w.store.setReturned_remembers id point) rfl

/-! ## 4. Hooks that look at objects -/

/-- An action that changes nothing but the store and does not fail. -/
def Silent {α : Type} (x : Work α) : Prop :=
  ∀ b, Wp x (fun _ => Left b.world b.locals [] b.stack) (fun _ _ => False) b

section Silent

variable {α β : Type}

theorem silent_pure (a : α) : Silent (pure a) := fun _ => ⟨.refl _, rfl, rfl⟩

theorem Silent.bind {x : Work α} {f : α → Work β} (hx : Silent x) (hf : ∀ a, Silent (f a)) :
    Silent (x >>= f) := by
  intro b
  rw [Action.wp_bind]
  refine (hx b).mono (fun a b' h => ?_) fun _ _ h => h
  refine (hf a b').mono (fun _ b'' h' => ?_) fun _ _ h => h
  exact ⟨h.world.trans h'.world, h'.locals.trans h.locals, h'.stack.trans h.stack⟩

theorem silent_tracking {f : (ObjectId → Bool) → Store → α × Store}
    (hf : ∀ alive s, (f alive s).2.records = s.records) : Silent (tracking inUse f) :=
  fun _ => left_withStore (Store.remembers_of_records (hf _ _)) rfl

theorem pointAt_silent (o : ObjectId) (index : Nat) : Silent (pointAt inUse o index) :=
  silent_tracking fun _ _ => (Store.onlyTracks_pointAt _ _ _ _).records

theorem trackerOf_silent (o : ObjectId) : Silent (trackerOf inUse o) :=
  silent_tracking fun _ _ => (Store.onlyTracks_trackerOf _ _ _).records

theorem setSource_silent (o : ObjectId) (index length : Nat) (source : Option TrackerId)
    (sourceIndex : Nat) : Silent (setSource inUse o index length source sourceIndex) :=
  silent_tracking fun _ _ => (Store.onlyTracks_setSource _ _ _ _ _ _ _).records

theorem recordSources_silent (o : ObjectId) : ∀ sources, Silent (recordSources inUse o sources)
  | [] => silent_pure ()
  | s :: rest =>
    (setSource_silent o s.start s.length (some s.source) s.sourceIndex).bind fun _ =>
      recordSources_silent o rest

theorem characterSources_silent (o : ObjectId) (table : TrackerId) :
    ∀ (offsets : List Nat) (index : Nat), Silent (characterSources inUse o table index offsets)
  | [], _ => silent_pure ()
  | offset :: rest, index => (setSource_silent o index 1 (some table) offset).bind fun taken => by
    cases taken with
    | true => exact characterSources_silent o table rest (index + 1)
    | false => exact silent_pure ()

theorem literalSource_silent (o : ObjectId) (text : List Char) (table : TrackerId) (offset : Nat) :
    Silent (literalSource inUse o text table offset) := by
  unfold literalSource literalSourceBy
  split
  · exact (setSource_silent o 0 _ _ _).bind fun _ => silent_pure _
  · exact characterSources_silent o table _ 0

end Silent

/-- The hook fails only on an object that is none. -/
theorem wp_fieldPoint (key : String) (v : Value)
    (hE : ∀ e b, w.heap.reference v = .error e → w.Follows b.world → E e b) :
    Wp (hook inUse (.fieldPoint key)) (fun _ => LeftPoint w L S) E ⟨w, L, v :: S⟩ := by
  unfold hook take
  simp only [Action.wp_bind, wp_pop_cons, wp_fromHeap]
  cases h : w.heap.reference v with
  | error e => exact hE e _ h (.refl w)
  | ok o? =>
    cases o? with
    | none => exact ⟨none, .refl w, rfl, rfl⟩
    | some o =>
      simp only [Action.wp_bind, wp_onStore, wp_push]
      exact ⟨_, left_withStore (.refl _) rfl⟩

theorem wp_setFieldPoint (key : String) (point : Option Point) (v : Value)
    (hE : ∀ e b, w.heap.reference v = .error e → w.Follows b.world → E e b) :
    Wp (hook inUse (.setFieldPoint key)) (fun _ => Left w L [] S) E
      ⟨w, L, .ofPoint point :: v :: S⟩ := by
  unfold hook take
  simp only [Action.wp_bind, wp_pop_cons, wp_fromHeap]
  cases h : w.heap.reference v with
  | error e => exact hE e _ h (.refl w)
  | ok o? =>
    cases o? with
    | none => exact ⟨.refl w, rfl, rfl⟩
    | some o =>
      simp only [Action.wp_bind, wp_fromHeap, point_ofPoint, wp_onStore]
      exact left_withStore
        (Store.remembers_of_records (w.store.setFieldPoint_records o key point)) rfl

theorem wp_elementPoint (index v : Value)
    (hindex : ∀ e b, w.heap.int index = .error e → w.Follows b.world → E e b)
    (hobject : ∀ n e b, w.heap.int index = .ok n → w.heap.reference v = .error e →
      w.Follows b.world → E e b) :
    Wp (hook inUse .elementPoint) (fun _ => LeftPoint w L S) E ⟨w, L, index :: v :: S⟩ := by
  unfold hook take popInt
  simp only [Action.wp_bind, wp_pop_cons, wp_fromHeap]
  cases hn : w.heap.int index with
  | error e => exact hindex e _ hn (.refl w)
  | ok n =>
    unfold elementPoint elementPointBy
    simp only [Action.wp_bind, wp_fromHeap]
    cases h : w.heap.reference v with
    | error e => exact hobject n e _ hn h (.refl w)
    | ok o? =>
      cases o? with
      | none => exact ⟨none, .refl w, rfl, rfl⟩
      | some o =>
        simp only
        split
        · exact ⟨none, .refl w, rfl, rfl⟩
        · refine (pointAt_silent o _ ⟨w, L, S⟩).mono (fun point b h => ?_) fun _ _ h => h.elim
          exact ⟨point, h.world, h.locals, congrArg (Value.ofPoint point :: ·) h.stack⟩

/-- **The hook behind a string literal** leaves a copy of the string. -/
theorem wp_constantString (classId offset : Nat) {o : ObjectId} {chars : Array Char}
    (ho : w.heap.object o = .string chars) :
    Wp (hook inUse (.constantString classId offset))
      (fun _ => Left { w with heap := (w.heap.allocate (.string chars)).2 } L
        [.ref (w.heap.allocate (.string chars)).1] S) E ⟨w, L, .ref o :: S⟩ := by
  have htext : HeapObject.ofText ((w.heap.text? o).getD "") = .string chars := by
    simp [Heap.text?, ho, HeapObject.text?, HeapObject.ofText]
  unfold hook take copyLiteral copyLiteralBy
  simp only [Action.wp_bind, wp_pop_cons, wp_fromHeap, Heap.reference, htext, allocate, wp_onHeap,
    wp_onStore]
  cases w.store.table classId with
  | error e => exact ⟨⟨rfl, rfl, .refl _⟩, rfl, rfl⟩
  | ok table =>
    simp only [Action.wp_bind]
    refine (literalSource_silent _ _ _ _ _).mono (fun _ b h => ?_) fun _ _ h => h.elim
    exact ⟨h.world, h.locals, congrArg (Value.ref _ :: ·) h.stack⟩

end Work

end Provenance
