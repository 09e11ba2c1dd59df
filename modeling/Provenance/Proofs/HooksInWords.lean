/-
# Hooks in words are hooks

A hook names ranges: of a table of literals, of the object that it writes to, of the source that a
point or a tracker stands for.  If all of them end within the words (`Hook.Ranged`), and so does
what the store has recorded so far (`Store.InWords`), the hook does in words what it does on numbers
(`Work.hookIn_eq`): no sum leaves the words, so none stops the program or wraps around.

The two differ in how they look up and record.  All that a hook does besides is the same, and leaves
the ledger as it is; so the hooks are compared piece by piece from one bench on (`Work.SameAt`).
-/
import Provenance.Proofs.HookEffects
import Provenance.Proofs.Taking
import Provenance.Proofs.Wordwise

namespace Provenance

open Numeral (wordBound)
open Provenance.Action (Wp)

/-! ## 1. Stores in words -/

namespace Store

/-- The parts of all trackers are in order and end within the words. -/
structure InWords (s : Store) : Prop where
  ordered : s.ledger.Ordered
  words : s.ledger.InWords

variable {w : Overflow} {s s' : Store} {alive : ObjectId → Bool} {o : ObjectId}
  {index length sourceIndex : Nat} {source : Option TrackerId}

theorem InWords.of_ledger (h : s.InWords) (hledger : s'.ledger = s.ledger) : s'.InWords :=
  ⟨hledger ▸ h.ordered, hledger ▸ h.words⟩

theorem tick_ledger (s : Store) (alive : ObjectId → Bool) : (s.tick alive).ledger = s.ledger := by
  unfold tick
  split
  · rfl
  · simp only
    split <;> rfl

theorem trackerOf_ledger (s : Store) (alive : ObjectId → Bool) (o : ObjectId) :
    (s.trackerOf alive o).2.ledger = s.ledger := by
  unfold trackerOf
  split
  · exact tick_ledger s alive
  · rfl

theorem InWords.trackerOf (h : s.InWords) : (s.trackerOf alive o).2.InWords :=
  h.of_ledger (trackerOf_ledger s alive o)

theorem InWords.ensureTracker (h : s.InWords) : (s.ensureTracker alive o).2.InWords := by
  have hadd : (s.ledger.add (.new .default [] none)).2.Ordered := fun id t ht => by
    rw [Ledger.tracker?_add] at ht
    split at ht
    · cases ht
      exact .nil
    · exact h.ordered id t ht
  unfold Store.ensureTracker
  split
  · split
    · exact h.of_ledger (tick_ledger s alive)
    · exact InWords.of_ledger ⟨hadd, h.words.add .default [] none⟩ (tick_ledger _ alive)
  · exact h

theorem InWords.onTracker (h : s.InWords) (hrange : Ledger.Ranged index length source sourceIndex) :
    (match s.ensureTracker alive o with
      | (none, s) => (some (.ok (), s) : Option (Except StoreError Unit × Store))
      | (some id, s) => (s.ledger.setSourceIn w id index length source sourceIndex).map fun
        | .ok ledger => (.ok (), { s with ledger })
        | .error e => (.error e, s)) =
      some (s.onTracker alive o fun id l => l.setSource id index length source sourceIndex) ∧
    (s.onTracker alive o fun id l =>
      l.setSource id index length source sourceIndex).2.InWords := by
  have hu : (s.ensureTracker alive o).2.InWords := h.ensureTracker
  unfold Store.onTracker
  cases hens : s.ensureTracker alive o with
  | mk id? u =>
    rw [hens] at hu
    cases id? with
    | none => exact ⟨rfl, hu⟩
    | some id =>
      have hset : u.ledger.setSourceIn w id index length source sourceIndex =
          some (u.ledger.setSource id index length source sourceIndex) :=
        Ledger.setSourceIn_eq hu.words hu.ordered hrange
      simp only [onLedger] at hset ⊢
      rw [hset]
      cases hl : u.ledger.setSource id index length source sourceIndex with
      | error e => exact ⟨rfl, hu⟩
      | ok l => exact ⟨rfl, hu.ordered.setSource hl, hu.words.setSource hu.ordered hrange hl⟩

/-- **Recording in words** is recording, and keeps a store in words. -/
theorem InWords.records (h : s.InWords) (hrange : Ledger.Ranged index length source sourceIndex) :
    s.setSourceIn w alive o index length source sourceIndex =
      some (s.setSource alive o index length source sourceIndex) ∧
    (s.setSource alive o index length source sourceIndex).2.InWords := by
  rw [setSource_eq]
  unfold setSourceIn
  cases source with
  | some id => exact h.onTracker hrange
  | none =>
    have hu : (s.trackerOf alive o).2.InWords := h.trackerOf
    cases htracker : s.trackerOf alive o with
    | mk id? u =>
      rw [htracker] at hu
      cases id? with
      | none => exact ⟨rfl, hu⟩
      | some id => exact hu.onTracker hrange

/-- **Looking up in words** is looking up. -/
theorem pointAtIn_eq (h : s.InWords) (index : Nat) :
    s.pointAtIn w alive o index = some (s.pointAt alive o index) := by
  unfold pointAtIn pointAt
  have hu : (s.trackerOf alive o).2.InWords := h.trackerOf
  cases htracker : s.trackerOf alive o with
  | mk id? u =>
    rw [htracker] at hu
    cases id? with
    | none => rfl
    | some id =>
      simp only
      rw [Ledger.resolveIn_eq hu.words hu.ordered]
      rfl

theorem constantPointIn_eq {classId offset : Nat} (hrange : offset + length < wordBound) :
    s.constantPointIn w classId offset length = some (s.constantPoint classId offset length) := by
  unfold constantPointIn constantPoint
  cases s.table classId with
  | error e => rfl
  | ok t =>
    simp only
    rw [w.add_eq hrange]
    rfl

end Store

/-! ## 2. Ranges that hooks name -/

/-- The texts of masked operands, from a length on, end within the words, and so do the ranges of
the sources that the points of the marked ones stand for. -/
def World.TextsFit (w : World) : Nat → List (Ty × Value) → List Char → List Value → Prop
  | start, (t, v) :: operands, mark :: marks, points =>
    let length := (w.render t v).toList.length
    start + length < wordBound ∧
      (mark = 'T' → ∀ p, points.head? = some (.point p) → p.index + length < wordBound) ∧
      w.TextsFit (start + length) operands marks (if mark = 'T' then points.tail else points)
  | _, _, _, _ => True

/-- Every range that a hook on a stack names ends within the words. -/
def Hook.Ranged (w : World) (stack : List Value) : Hook → Prop
  | .constantPoint c => c.offset + c.length < wordBound
  | .arrayStoreWithPoint _ => ∀ p, stack.head? = some (.point p) → p.index + 1 < wordBound
  | .concatWithPoints args mask =>
    let points := (stack.take (markedCount mask)).reverse
    let values := ((stack.drop (markedCount mask)).take args.length).reverse
    w.TextsFit 0 (args.zip values) mask.toList points
  | .constantString _ offset => ∀ o, stack.head? = some (.ref o) →
    offset + Utf8.byteLength ((w.heap.text? o).getD "").toList < wordBound
  | .arrayClone => ∀ o elem values, stack.head? = some (.ref o) →
    w.heap.object o = .array elem values → values.size < wordBound
  | _ => True

namespace Utf8

theorem byteLength_cons (c : Char) (cs : List Char) :
    byteLength (c :: cs) = (String.utf8EncodeChar c).length + byteLength cs := by
  simp [byteLength]

theorem length_le_byteLength : ∀ cs : List Char, cs.length ≤ byteLength cs
  | [] => Nat.le_refl _
  | c :: cs => by
    have hrest := length_le_byteLength cs
    have hc : 0 < (String.utf8EncodeChar c).length := by
      rw [String.length_utf8EncodeChar]
      exact Char.utf8Size_pos c
    rw [byteLength_cons, List.length_cons]
    omega

/-- Every character of a text begins within it. -/
theorem lt_of_mem_offsets {offset : Nat} : ∀ {cs : List Char} {start : Nat},
    offset ∈ offsets start cs → offset < start + byteLength cs
  | c :: cs, start, h => by
    have hc : 0 < (String.utf8EncodeChar c).length := by
      rw [String.length_utf8EncodeChar]
      exact Char.utf8Size_pos c
    rw [byteLength_cons]
    rcases List.mem_cons.mp h with rfl | h
    · omega
    · have := lt_of_mem_offsets h
      omega

end Utf8

theorem Heap.reference_eq_some {h : Heap} {v : Value} {o : ObjectId}
    (hv : h.reference v = .ok (some o)) : v = .ref o := by
  cases v <;> simp [reference, mismatch] at hv
  rw [hv]

/-! ## 3. Two pieces of work that do the same -/

namespace Work

/-- Two pieces of work come to the same from a bench on. -/
def SameAt {α : Type} (x y : Work α) (b : Bench) : Prop := x.outcome b = y.outcome b

section SameAt

variable {α β : Type} {x y : Work α} {f g : α → Work β} {b : Bench} {u : RunError}

/-- The same, and then the same again. -/
theorem SameAt.bind (h : SameAt x y b)
    (hf : Wp y (fun a => SameAt (f a) (g a)) (fun _ _ => True) b) :
    SameAt (x >>= f) (y >>= g) b := by
  unfold SameAt at h
  unfold SameAt
  rw [Action.outcome_bind, Action.outcome_bind, h]
  unfold Wp at hf
  rcases hy : y.outcome b with ⟨r, t⟩
  rw [hy] at hf
  cases r with
  | ok a => exact hf
  | error e => rfl

/-- The same after the same beginning. -/
theorem sameAt_bind (hf : Wp x (fun a => SameAt (f a) (g a)) (fun _ _ => True) b) :
    SameAt (x >>= f) (x >>= g) b := .bind rfl hf

/-- The same with the same to follow. -/
theorem SameAt.andThen (h : SameAt x y b) : SameAt (x >>= f) (y >>= f) b :=
  h.bind (by unfold Wp; split <;> trivial)

theorem sameAt_pop {f g : Value → Work β}
    (h : ∀ v S, b.stack = v :: S → SameAt (f v) (g v) { b with stack := S }) :
    SameAt (pop u >>= f) (pop u >>= g) b := by
  refine sameAt_bind ((wp_pop u b).mpr ?_)
  split
  · trivial
  · exact h _ _ ‹_›

theorem sameAt_popMany {f g : List Value → Work β} {n : Nat}
    (h : SameAt (f (b.stack.take n).reverse) (g (b.stack.take n).reverse)
      { b with stack := b.stack.drop n }) :
    SameAt (popMany u n >>= f) (popMany u n >>= g) b := by
  refine sameAt_bind ((wp_popMany u n b).mpr ?_)
  split
  · trivial
  · exact h

theorem sameAt_fromHeap {e : Heap → Except RunError α}
    (h : ∀ a, e b.world.heap = .ok a → SameAt (f a) (g a) b) :
    SameAt (fromHeap e >>= f) (fromHeap e >>= g) b := by
  refine sameAt_bind ((wp_fromHeap e b).mpr ?_)
  split
  · exact h _ ‹_›
  · trivial

theorem sameAt_popInt {f g : Int32 → Work β}
    (h : ∀ n S, SameAt (f n) (g n) { b with stack := S }) :
    SameAt (popInt u >>= f) (popInt u >>= g) b := by
  unfold popInt
  rw [bind_assoc, bind_assoc]
  exact sameAt_pop fun v S _ => sameAt_fromHeap fun n _ => h n S

theorem sameAt_popTarget {f g : ObjectId → Work β} {context : String}
    (h : ∀ o S, SameAt (f o) (g o) { b with stack := S }) :
    SameAt (popTarget u context >>= f) (popTarget u context >>= g) b := by
  unfold popTarget
  rw [bind_assoc, bind_assoc]
  exact sameAt_pop fun v S _ => sameAt_fromHeap fun o _ => h o S

theorem sameAt_onHeap {f g : α → Work β} {e : Heap → α × Heap}
    (h : SameAt (f (e b.world.heap).1) (g (e b.world.heap).1)
      { b with world.heap := (e b.world.heap).2 }) :
    SameAt (onHeap e >>= f) (onHeap e >>= g) b :=
  sameAt_bind h

theorem sameAt_tracking {inUse : Thunk (List Value)} {e : (ObjectId → Bool) → Store → α × Store}
    (h : SameAt (f (e (b.world.alive inUse) b.world.store).1)
      (g (e (b.world.alive inUse) b.world.store).1) { b with world.store :=
      (e (b.world.alive inUse) b.world.store).2 }) :
    SameAt (tracking inUse e >>= f) (tracking inUse e >>= g) b :=
  sameAt_bind h

end SameAt

/-! ## 4. Recording and looking up -/

variable {w : Overflow} {inUse : Thunk (List Value)} {o : ObjectId} {b : Bench}
  {index length sourceIndex : Nat} {source : Option TrackerId}

theorem trackingIn_sameAt {α : Type} {f : (ObjectId → Bool) → Store → Option (α × Store)}
    {g : (ObjectId → Bool) → Store → α × Store}
    (h : f (b.world.alive inUse) b.world.store = some (g (b.world.alive inUse) b.world.store)) :
    SameAt (trackingIn inUse f) (tracking inUse g) b := by
  unfold SameAt Action.outcome trackingIn
  simp only [h]
  rfl

/-- **Recording in words** is recording, on a bench whose store is in words. -/
theorem setSourceIn_sameAt (hb : b.world.store.InWords)
    (hrange : Ledger.Ranged index length source sourceIndex) (hword : sourceIndex < wordBound) :
    SameAt (setSourceIn w inUse o index length source sourceIndex)
      (setSource inUse o index length source sourceIndex) b := by
  refine trackingIn_sameAt ?_
  simp only [w.word_eq hword, Option.bind_some, (hb.records hrange).1, Option.map_some]

/-- Recording leaves the store in words. -/
theorem setSource_inWords (hb : b.world.store.InWords)
    (hrange : Ledger.Ranged index length source sourceIndex) {E : RunError → Bench → Prop} :
    Wp (setSource inUse o index length source sourceIndex)
      (fun _ b' => b'.world.store.InWords) E b :=
  (hb.records (w := .stops) hrange).2

theorem pointAtIn_sameAt (hb : b.world.store.InWords) (index : Nat) :
    SameAt (pointAtIn w inUse o index) (pointAt inUse o index) b :=
  trackingIn_sameAt (Store.pointAtIn_eq hb index)

/-! ## 5. The hooks -/

theorem elementPoint_sameAt (hb : b.world.store.InWords) (v : Value) (index : Int32) :
    SameAt (elementPointBy (pointAtIn w inUse) v index) (elementPoint inUse v index) b := by
  unfold elementPoint elementPointBy
  refine sameAt_fromHeap fun object _ => ?_
  cases object with
  | none => rfl
  | some o =>
    simp only
    split
    · rfl
    · exact pointAtIn_sameAt hb _

/-- Two ints are far from leaving the words. -/
theorem toNat_add_lt (m n : Int32) : m.toInt.toNat + n.toInt.toNat < wordBound := by
  have hm := m.toInt_lt
  have hn := n.toInt_lt
  have hword : wordBound = 2 ^ 64 := rfl
  omega

theorem storeWithPoint_sameAt (hb : b.world.store.InWords)
    (hpoint : ∀ p, b.stack.head? = some (.point p) → p.index + 1 < wordBound) :
    SameAt (storeWithPointBy (setSourceIn w) inUse) (storeWithPoint inUse) b := by
  unfold storeWithPoint storeWithPointBy take storeElement
  simp only [bind_assoc]
  refine sameAt_pop fun v S hS => ?_
  refine sameAt_pop fun _ _ _ => ?_
  refine sameAt_popInt fun n _ => ?_
  refine sameAt_popTarget fun o _ => ?_
  refine sameAt_fromHeap fun i _ => ?_
  refine sameAt_onHeap ?_
  refine sameAt_fromHeap fun p hp => ?_
  have hbound : (p.map Point.index).getD 0 + 1 < wordBound := by
    cases p with
    | none => decide
    | some p =>
      obtain rfl := Heap.point_eq_ok hp
      exact hpoint p (by rw [hS]; rfl)
  have hrange : Ledger.Ranged n.toInt.toNat 1 (p.map Point.tracker) ((p.map Point.index).getD 0) :=
    ⟨by simpa using toNat_add_lt n 1, fun _ => hbound⟩
  exact SameAt.andThen (setSourceIn_sameAt hb hrange (Nat.lt_of_succ_lt hbound))

theorem copyArray_sameAt (hb : b.world.store.InWords) (args : List Value) :
    SameAt (copyArrayBy (setSourceIn w) inUse args) (copyArray inUse args) b := by
  unfold copyArray copyArrayBy
  split
  · rename_i source position target targetPosition length
    unfold changeHeap trackerOf
    simp only [bind_assoc]
    refine sameAt_fromHeap fun o _ => ?_
    refine sameAt_fromHeap fun t _ => ?_
    refine sameAt_fromHeap fun p _ => ?_
    refine sameAt_fromHeap fun q _ => ?_
    refine sameAt_fromHeap fun n _ => ?_
    refine sameAt_fromHeap fun heap _ => ?_
    refine sameAt_onHeap (sameAt_tracking ?_)
    have hword : p.toInt.toNat < wordBound :=
      Nat.lt_of_le_of_lt (Nat.le_add_right _ _) (toNat_add_lt p n)
    exact SameAt.andThen
      (setSourceIn_sameAt hb.trackerOf ⟨toNat_add_lt q n, fun _ => toNat_add_lt p n⟩ hword)
  · rfl

theorem cloneArray_sameAt (hb : b.world.store.InWords) {v : Value}
    (hsize : ∀ o elem values, v = .ref o → b.world.heap.object o = .array elem values →
      values.size < wordBound) :
    SameAt (cloneArrayBy (setSourceIn w) inUse v) (cloneArray inUse v) b := by
  unfold cloneArray cloneArrayBy allocate trackerOf
  refine sameAt_fromHeap fun o ho => ?_
  refine sameAt_fromHeap fun x hx => ?_
  refine sameAt_onHeap (sameAt_tracking ?_)
  split
  · rfl
  · refine sameAt_fromHeap fun n hn => ?_
    obtain ⟨elem, values, hvalues, rfl⟩ := Heap.duplicate_eq_ok hx
    have hcopy : (b.world.heap.allocate (.array elem values)).2.object
        (b.world.heap.allocate (.array elem values)).1 = .array elem values := by
      rw [Heap.object_allocate]
      exact if_pos rfl
    obtain rfl : values.size = n := Except.ok.inj ((Heap.length_of_array hcopy).symm.trans hn)
    have hbound : values.size < wordBound := hsize o elem values (Heap.target_eq_ok ho) hvalues
    have hrange : ∀ tracker, Ledger.Ranged 0 values.size (some tracker) 0 := fun _ =>
      ⟨by rwa [Nat.zero_add], fun _ => by rwa [Nat.zero_add]⟩
    exact SameAt.andThen (setSourceIn_sameAt hb.trackerOf (hrange _) (by decide))

theorem characterSources_sameAt {table : TrackerId} :
    ∀ {offsets : List Nat} {index : Nat} {b : Bench}, b.world.store.InWords →
    index + offsets.length < wordBound → (∀ k ∈ offsets, k + 1 < wordBound) →
    SameAt (characterSourcesBy (setSourceIn w) inUse o table index offsets)
      (characterSources inUse o table index offsets) b
  | [], _, _, _, _, _ => rfl
  | k :: offsets, index, b, hb, hindex, hoffsets => by
    obtain ⟨hk, hrest⟩ := List.forall_mem_cons.mp hoffsets
    rw [List.length_cons] at hindex
    have hrange : Ledger.Ranged index 1 (some table) k := ⟨by omega, fun _ => hk⟩
    refine SameAt.bind (setSourceIn_sameAt hb hrange (by omega)) ?_
    refine (setSource_inWords hb hrange (E := fun _ _ => True)).mono (fun taken b' hb' => ?_)
      fun _ _ h => h
    cases taken with
    | true => exact characterSources_sameAt hb' (by omega) hrest
    | false => rfl

theorem literalSource_sameAt (hb : b.world.store.InWords) {text : List Char} {table : TrackerId}
    {offset : Nat} (hbound : offset + Utf8.byteLength text < wordBound) :
    SameAt (literalSourceBy (setSourceIn w) inUse o text table offset)
      (literalSource inUse o text table offset) b := by
  have hlength := Utf8.length_le_byteLength text
  unfold literalSource literalSourceBy
  split
  · have hrange : Ledger.Ranged 0 text.length (some table) offset := ⟨by omega, fun _ => by omega⟩
    exact SameAt.andThen (setSourceIn_sameAt hb hrange (by omega))
  · refine characterSources_sameAt hb (by rw [Utf8.length_offsets]; omega) fun k hk => ?_
    have := Utf8.lt_of_mem_offsets hk
    omega

theorem copyLiteral_sameAt (hb : b.world.store.InWords) {classId offset : Nat}
    (hbound : offset + Utf8.byteLength ((b.world.heap.text? o).getD "").toList < wordBound) :
    SameAt (copyLiteralBy (setSourceIn w) inUse classId offset o)
      (copyLiteral inUse classId offset o) b := by
  unfold copyLiteral copyLiteralBy allocate
  refine sameAt_fromHeap fun text htext => ?_
  obtain rfl := Except.ok.inj htext
  refine sameAt_onHeap (sameAt_bind ?_)
  rw [wp_onStore]
  split
  · rfl
  · refine SameAt.andThen (literalSource_sameAt ?_ hbound)
    exact hb

theorem recordSources_sameAt : ∀ {sources : List TextSource} {b : Bench}, b.world.store.InWords →
    (∀ s ∈ sources, Ledger.Ranged s.start s.length (some s.source) s.sourceIndex) →
    SameAt (recordSourcesBy (setSourceIn w) inUse o sources) (recordSources inUse o sources) b
  | [], _, _, _ => rfl
  | s :: sources, b, hb, hsources => by
    obtain ⟨hs, hrest⟩ := List.forall_mem_cons.mp hsources
    have hword : s.sourceIndex < wordBound :=
      Nat.lt_of_le_of_lt (Nat.le_add_right _ _) (hs.source rfl)
    refine SameAt.bind (setSourceIn_sameAt hb hs hword) ?_
    exact (setSource_inWords hb hs (E := fun _ _ => True)).mono
      (fun _ _ hb' => recordSources_sameAt hb' hrest) fun _ _ h => h

/-- **The sources of texts within the words** lie within the words. -/
theorem joinTracked_ranged {W : World} {L : Array Value} {S : List Value} :
    ∀ {operands : List (Ty × Value)} {marks : List Char} {points : List Value}
      {start : Nat} {u : Store},
    u.records = W.store.records → u.InWords → W.TextsFit start operands marks points →
    Wp (joinTracked inUse start operands marks points)
      (fun r b => b.world.store.InWords ∧
        ∀ s ∈ r.2, Ledger.Ranged s.start s.length (some s.source) s.sourceIndex)
      (fun _ _ => True) ⟨{ W with store := u }, L, S⟩
  | [], _, _, _, _, _, hu, _ => by
    unfold joinTracked
    exact ⟨hu, List.forall_mem_nil _⟩
  | _ :: _, [], _, _, _, _, hu, _ => by
    unfold joinTracked
    exact ⟨hu, List.forall_mem_nil _⟩
  | (t, v) :: operands, mark :: marks, points, start, u, hrecords, hu, hfit => by
    obtain ⟨hstart, hpoint, hothers⟩ := hfit
    -- the operands after this one, once its source is known
    have hrest : ∀ (source : Option TextSource) (u' : Store),
        u'.records = W.store.records → u'.InWords →
        (∀ s ∈ source, Ledger.Ranged s.start s.length (some s.source) s.sourceIndex) →
        Wp (joinTracked inUse (start + (W.render t v).toList.length) operands marks
            (if mark = 'T' then points.tail else points) >>= fun r =>
              pure ((W.render t v).toList ++ r.1, source.toList ++ r.2))
          (fun r b => b.world.store.InWords ∧
            ∀ s ∈ r.2, Ledger.Ranged s.start s.length (some s.source) s.sourceIndex)
          (fun _ _ => True) ⟨{ W with store := u' }, L, S⟩ := by
      intro source u' hrecords' hu' hsource
      rw [Action.wp_bind]
      refine (joinTracked_ranged hrecords' hu' hothers).mono (fun r b' hr => ?_) fun _ _ h => h
      refine ⟨hr.1, List.forall_mem_append.mpr ⟨fun s hs => hsource s ?_, hr.2⟩⟩
      exact Option.mem_toList.mp hs
    unfold joinTracked
    rw [Action.wp_bind, Action.wp_inspect]
    simp only [World.render_withStore hrecords]
    by_cases hmark : mark = 'T'
    · simp only [hmark, if_true] at hrest ⊢
      cases points with
      | nil => exact hrest none u hrecords hu fun _ hs => nomatch hs
      | cons p points =>
        rw [Action.wp_bind, wp_fromHeap]
        split
        · rename_i point hp
          obtain rfl := Heap.point_eq_ok hp
          refine hrest _ u hrecords hu fun s hs => ?_
          obtain ⟨q, rfl, rfl⟩ := Option.map_eq_some_iff.mp hs
          exact ⟨hstart, fun _ => hpoint hmark q rfl⟩
        · trivial
    · simp only [hmark, if_false] at hrest ⊢
      cases ho : v.object? with
      | none =>
        exact hrest none u hrecords hu fun _ hs => nomatch hs
      | some o =>
        have hrecords' :=
          (Store.onlyTracks_trackerOf u (World.alive { W with store := u } inUse) o).records
        rw [Action.wp_bind]
        refine hrest _ _ (hrecords'.trans hrecords) hu.trackerOf fun s hs => ?_
        obtain ⟨id, -, rfl⟩ := Option.map_eq_some_iff.mp hs
        exact ⟨hstart, fun _ => by simp only [Nat.zero_add]; omega⟩

theorem concatenate_sameAt (hb : b.world.store.InWords) {args : List Ty} {mask : String}
    {values points : List Value}
    (hfit : b.world.TextsFit 0 (args.zip values) mask.toList points) :
    SameAt (concatenateBy (setSourceIn w) inUse args mask values points)
      (concatenate inUse args mask values points) b := by
  unfold concatenate concatenateBy allocate
  refine sameAt_bind ((joinTracked_ranged rfl hb hfit).mono (fun r b' hr => ?_) fun _ _ h => h)
  obtain ⟨hb', hsources⟩ := hr
  exact sameAt_onHeap (SameAt.andThen (recordSources_sameAt hb' hsources))

theorem constantPointIn_sameAt {c : ClassConstant} (hbound : c.offset + c.length < wordBound) :
    SameAt (constantPointIn w c) (onStore fun s =>
      (if s.isActive then (s.constantPoint c.classId c.offset c.length).toOption
        else none, s)) b := by
  unfold SameAt Action.outcome constantPointIn trackingIn
  simp only [Store.constantPointIn_eq hbound, Option.map_some]
  by_cases hactive : b.world.store.isActive
  · simp only [if_pos hactive]
    unfold onStore Action.update
    simp only [if_pos hactive]
  · simp only [if_neg hactive]
    unfold onStore Action.update
    simp only [if_neg hactive]

/-- **A hook in words** is the hook, if all ranges that it names end within the words. -/
theorem hookIn_eq (h : Hook) (hb : b.world.store.InWords) (hrange : h.Ranged b.world b.stack) :
    (hookIn w inUse h).outcome b = (hook inUse h).outcome b := by
  cases h with
  | constantPoint c => exact SameAt.andThen (constantPointIn_sameAt hrange)
  | elementPoint =>
    refine sameAt_popInt fun index S => sameAt_pop fun v S' _ => SameAt.andThen ?_
    exact elementPoint_sameAt (by exact hb) v index
  | arrayStoreWithPoint elem => exact storeWithPoint_sameAt hb hrange
  | concatWithPoints args mask =>
    refine sameAt_popMany (sameAt_popMany (SameAt.andThen ?_))
    exact concatenate_sameAt (by exact hb) hrange
  | constantString classId offset =>
    refine sameAt_pop fun v S hS => sameAt_fromHeap fun o? ho => ?_
    cases o? with
    | none => rfl
    | some o =>
      obtain rfl := Heap.reference_eq_some ho
      exact SameAt.andThen (copyLiteral_sameAt (by exact hb) (hrange o (by rw [hS]; rfl)))
  | arrayCopy =>
    exact sameAt_popMany (copyArray_sameAt (by exact hb) _)
  | arrayClone =>
    refine sameAt_pop fun v S hS => SameAt.andThen (cloneArray_sameAt (by exact hb) ?_)
    exact fun o elem values hv ho => hrange o elem values (by rw [hS, hv]; rfl) ho
  | _ => rfl

end Work

end Provenance
