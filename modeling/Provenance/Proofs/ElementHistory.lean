/-
# A history of array elements

A history of a run keeps every write to an element of an array: how it was done, which value came to
stand there, and where it was recorded to come from, if a hook did so (`ElementHistory`).  What the
store knows of an element is what was recorded with its last write, or nothing, as long as a hook
did that write; and the array holds the value of that write (`ElementHistory.Agrees`).

Everything that is done to arrays is one of two things: a range of one array gets other values and,
beside them, other sources (`Agrees.write`), or other values alone (`Agrees.leave`).
-/
import Provenance.Flow.Carrier
import Provenance.Proofs.Owning
import Provenance.Proofs.Sparing

namespace Provenance

/-! ## 1. Writes -/

/-- How a value came to stand in an array. -/
inductive Way where
  | store (t : Ty)
  | copy
  | clone
  deriving DecidableEq, Repr

/-- A write to an element of an array. -/
structure ElementWrite where
  object : ObjectId
  index : Nat
  way : Way
  /-- The value as the array holds it. -/
  value : Value
  /-- Where the value was recorded to come from, or from nowhere known, if a hook did so. -/
  recorded : Option (Option Place)
  deriving DecidableEq, Repr

/-- The writes to a range of an array. -/
def ElementWrite.range (o : ObjectId) (start length : Nat) (way : Way) (value : Nat → Value)
    (recorded : Nat → Option (Option Place)) : List ElementWrite :=
  (List.range length).map fun k => ⟨o, start + k, way, value k, recorded k⟩

/-- What a run did to the elements of arrays. -/
structure ElementHistory where
  /-- All writes, the latest first. -/
  writes : List ElementWrite
  deriving DecidableEq, Repr

namespace ElementHistory

/-- The last write to an element. -/
def lastWrite (h : ElementHistory) (o : ObjectId) (i : Nat) : Option ElementWrite :=
  h.writes.find? fun e => e.object = o ∧ e.index = i

/-- A history that goes on with some writes. -/
def add (h : ElementHistory) (es : List ElementWrite) : ElementHistory := ⟨es ++ h.writes⟩

end ElementHistory

/-- What an array holds when a value is stored there. -/
def Heap.fitted (h : Heap) (o : ObjectId) (v : Value) : Value :=
  match h.object o with
  | .array elem _ => v.narrowed elem
  | _ => v

/-- Where what has a point comes from, as an array records it. -/
def Ledger.origin (l : Ledger) : Value → Option Place
  | .point p => l.reads p.tracker p.index
  | _ => none

/-- The writes of a bulk copy with these arguments; a hook records where the elements come from. -/
def World.copied (w : World) (hooked : Bool) : List Value → List ElementWrite
  | .ref source :: .int position :: .ref target :: .int targetPosition :: .int length :: _ =>
    match w.heap.object source, w.heap.object target with
    | .array _ values, .array _ _ =>
      ElementWrite.range target targetPosition.toInt.toNat length.toInt.toNat .copy
        (fun k => values.getD (position.toInt.toNat + k) .null)
        (fun k => if hooked then some (w.store.placeOf source (position.toInt.toNat + k)) else none)
    | _, _ => []
  | _ => []

theorem World.copied_of_arrays {w : World} {hooked : Bool} {source target : ObjectId}
    {position targetPosition length : Int32} {elem targetElem : Ty}
    {values targetValues : Array Value} {rest : List Value}
    (hsource : w.heap.object source = .array elem values)
    (htarget : w.heap.object target = .array targetElem targetValues) :
    w.copied hooked (.ref source :: .int position :: .ref target :: .int targetPosition ::
      .int length ::
        rest) =
      ElementWrite.range target targetPosition.toInt.toNat length.toInt.toNat .copy
        (fun k => values.getD (position.toInt.toNat + k) .null)
        (fun k => if hooked then some (w.store.placeOf source (position.toInt.toNat + k))
          else none) := by
  simp only [World.copied, hsource, htarget]

/-- What the library calls the bulk copy. -/
def copyKey : String := methodKey Carrier.systemClass "arraycopy" Carrier.arrayCopyDescriptor

namespace ElementHistory

/-- The history after an instruction. -/
def after (i : Insn) (b : Bench) (h : ElementHistory) : ElementHistory :=
  match i with
  | .arrayStore t =>
    match b.stack with
    | v :: .int n :: .ref o :: _ =>
      h.add (ElementWrite.range o n.toInt.toNat 1 (.store t) (fun _ => b.world.heap.fitted o v)
        fun _ => none)
    | _ => h
  | .hook (.arrayStoreWithPoint t) =>
    match b.stack with
    | p :: v :: .int n :: .ref o :: _ =>
      h.add (ElementWrite.range o n.toInt.toNat 1 (.store t) (fun _ => b.world.heap.fitted o v)
        fun _ => some (b.world.store.ledger.origin p))
    | _ => h
  | .hook .arrayCopy => h.add (b.world.copied true (b.stack.take 5).reverse)
  | .invoke m =>
    if methodKey m.owner m.name m.desc.descriptor = copyKey then
      h.add (b.world.copied false (b.stack.take m.operandCount).reverse)
    else h
  | .hook .arrayClone =>
    match b.stack with
    | .ref o :: _ =>
      match b.world.heap.object o with
      | .array _ values =>
        h.add (ElementWrite.range b.world.heap.objects.nextId 0 values.size .clone
          (values.getD · .null)
          fun k => some (b.world.store.placeOf o k))
      | _ => h
    | _ => h
  | _ => h

variable {h : ElementHistory} {o : ObjectId} {i start length : Nat} {way : Way}
    {value : Nat → Value}
  {recorded : Nat → Option (Option Place)}

theorem find?_range (o' : ObjectId) :
    (ElementWrite.range o start length way value recorded).find? (fun e => e.object = o' ∧
      e.index = i) =
      if o' = o ∧ start ≤ i ∧ i < start + length then
        some ⟨o, i, way, value (i - start), recorded (i - start)⟩
      else none := by
  unfold ElementWrite.range
  induction length with
  | zero => rw [if_neg (by omega)]; rfl
  | succ n ih =>
    rw [List.range_succ, List.map_append, List.find?_append, ih]
    by_cases ho : o' = o
    · subst ho
      by_cases hlt : start ≤ i ∧ i < start + n
      · rw [if_pos ⟨rfl, hlt⟩, if_pos ⟨rfl, hlt.1, by omega⟩]
        rfl
      · rw [if_neg fun h => hlt h.2]
        by_cases hi : start + n = i
        · subst hi
          simp
        · rw [if_neg (by omega)]
          simp [hi]
    · rw [if_neg fun h => ho h.1, if_neg fun h => ho h.1]
      simp [Ne.symm ho]

/-- **The last write** after writes to a range. -/
theorem lastWrite_add_range (o' : ObjectId) :
    (h.add (ElementWrite.range o start length way value recorded)).lastWrite o' i =
      if o' = o ∧ start ≤ i ∧ i < start + length then
        some ⟨o, i, way, value (i - start), recorded (i - start)⟩
      else h.lastWrite o' i := by
  unfold lastWrite add
  simp only [List.find?_append, find?_range]
  split <;> rfl

theorem object_of_lastWrite {e : ElementWrite} (he : h.lastWrite o i = some e) :
    e ∈ h.writes ∧ e.object = o ∧ e.index = i :=
  ⟨List.mem_of_find?_eq_some he, by simpa using List.find?_some he⟩

end ElementHistory

/-! ## 2. Arrays on the heap -/

namespace Heap

/-- Whether an object is an array. -/
def IsArray (h : Heap) (o : ObjectId) : Prop :=
  ∃ elem values, h.objects.get? o = some (.array elem values)

/-- A heap in which a range of one array has other values, and all other arrays are as they were. -/
structure Overwrites (h h' : Heap) (o : ObjectId) (start length : Nat)
    (value : Nat → Value) : Prop where
  known : ∀ a x, h.objects.get? a = some x → ∃ x', h'.objects.get? a = some x'
  isArray : ∀ a, h'.IsArray a ↔ h.IsArray a
  values : ∀ a elem values', h'.objects.get? a = some (.array elem values') →
    ∃ values, h.objects.get? a = some (.array elem values) ∧ ∀ i, values'[i]? =
      if a = o ∧ start ≤ i ∧ i < start + length then some (value (i - start)) else values[i]?

variable {h h' : Heap} {o : ObjectId} {x : HeapObject} {start length : Nat} {value : Nat → Value}

theorem get?_of_object {elem : Ty} {values : Array Value} (ho : h.object o = .array elem values) :
    h.objects.get? o = some (.array elem values) := by
  unfold object at ho
  cases hx : h.objects.get? o with
  | none =>
    rw [hx] at ho
    cases ho
  | some x =>
    rw [hx] at ho
    exact congrArg some ho

theorem object_of_get? (ho : h.objects.get? o = some x) : h.object o = x := by
  unfold object
  rw [ho]
  rfl

theorem isArray_allocate (a : ObjectId) : (h.allocate x).2.IsArray a ↔
    if a = h.objects.nextId then ∃ elem values, x = .array elem values else h.IsArray a := by
  unfold IsArray allocate
  simp only [Table.get?_add]
  split
  · simp only [Option.some.injEq]
  · rfl

/-- Nothing changes. -/
theorem Overwrites.refl (hv : ∀ elem values, h.objects.get? o = some (.array elem values) →
    ∀ i, start ≤ i ∧ i < start + length → values[i]? = some (value (i - start))) :
    h.Overwrites h o start length value where
  known _ x hx := ⟨x, hx⟩
  isArray _ := Iff.rfl
  values a elem values ha := by
    refine ⟨values, ha, fun i => ?_⟩
    split
    · rename_i hrange
      obtain ⟨rfl, hrange⟩ := hrange
      exact hv elem values ha i hrange
    · rfl

/-- Changing an array to one of the same type, or something that is no array to something of the
kind. -/
theorem Overwrites.modify {f : HeapObject → HeapObject}
    (harray : ∀ elem values, h.objects.get? o = some (.array elem values) →
      ∃ values', f (.array elem values) = .array elem values' ∧ ∀ i, values'[i]? =
        if start ≤ i ∧ i < start + length then some (value (i - start)) else values[i]?)
    (hother : ∀ x, h.objects.get? o = some x → (∀ elem values, x ≠ .array elem values) →
      ∀ elem values, f x ≠ .array elem values) :
    h.Overwrites (h.modify o f) o start length value := by
  have hget (a : ObjectId) : (h.modify o f).objects.get? a =
      if o = a then (h.objects.get? a).map f else h.objects.get? a := Table.get?_modify _ _ _ _
  refine ⟨fun a x hx => ?_, fun a => ?_, fun a elem values' ha => ?_⟩
  · rw [hget, hx]
    split <;> exact ⟨_, rfl⟩
  · unfold IsArray
    rw [hget]
    split
    · rename_i hoa
      subst hoa
      constructor
      · rintro ⟨elem, values, hx⟩
        obtain ⟨x, hx, hfx⟩ := Option.map_eq_some_iff.mp hx
        cases x with
        | array elem' values' => exact ⟨elem', values', hx⟩
        | _ => exact absurd hfx (hother _ hx (by simp) _ _)
      · rintro ⟨elem, values, hx⟩
        obtain ⟨values', hfx, -⟩ := harray elem values hx
        exact ⟨elem, values', by rw [hx, Option.map_some, hfx]⟩
    · rfl
  · rw [hget] at ha
    split at ha
    · rename_i hoa
      subst hoa
      obtain ⟨x, hx, hfx⟩ := Option.map_eq_some_iff.mp ha
      cases x with
      | array elem' values =>
        obtain ⟨values'', hfx', hvalues⟩ := harray elem' values hx
        obtain ⟨rfl, rfl⟩ := HeapObject.array.inj (hfx'.symm.trans hfx)
        exact ⟨values, hx, fun i => by simpa using hvalues i⟩
      | _ => exact absurd hfx (hother _ hx (by simp) _ _)
    · rename_i hoa
      exact ⟨values', ha, fun i => by rw [if_neg fun h => hoa h.1.symm]⟩

/-- A place that an index names for writing. -/
theorem place_eq_ok {index : Int32} {n i : Nat} (hplace : place index n = .ok i) :
    0 ≤ index.toInt ∧ i = index.toInt.toNat ∧ i < n := by
  unfold place at hplace
  split at hplace
  · obtain rfl := Except.ok.inj hplace
    exact ⟨by omega, rfl, by omega⟩
  · cases hplace

theorem elementPlace_eq_ok {index : Int32} {i : Nat} (hplace : h.elementPlace o index = .ok i) :
    ∃ elem values, h.object o = .array elem values ∧ i = index.toInt.toNat ∧ i < values.size := by
  unfold elementPlace at hplace
  split at hplace
  · rename_i elem values ho
    exact ⟨elem, values, ho, (place_eq_ok hplace).2⟩
  · cases hplace

/-- **Storing an element.** -/
theorem overwrites_putElement {index : Int32} {i : Nat} (hplace : h.elementPlace o index = .ok i)
    (v : Value) :
    h.Overwrites (h.putElement o i v) o index.toInt.toNat 1 (fun _ => h.fitted o v) := by
  obtain ⟨elem, values, ho, rfl, hlt⟩ := elementPlace_eq_ok hplace
  refine .modify (fun elem' values' ho' => ?_) fun x hx hne elem' values' => ?_
  · obtain ⟨rfl, rfl⟩ := HeapObject.array.inj ((object_of_get? ho').symm.trans ho)
    refine ⟨_, rfl, fun i => ?_⟩
    simp only [fitted, ho, Array.getElem?_setIfInBounds]
    by_cases hi : index.toInt.toNat = i
    · subst hi
      rw [if_pos rfl, if_pos hlt, if_pos (by omega)]
    · rw [if_neg hi, if_neg (by omega)]
  · rw [get?_of_object ho] at hx
    exact absurd (Option.some.inj hx).symm (hne _ _)

theorem getElem?_overwrite (vs : List Value) : ∀ (values : Array Value) (start i : Nat),
    start + vs.length ≤ values.size → (overwrite values start vs)[i]? =
      if start ≤ i ∧ i < start + vs.length then vs[i - start]? else values[i]? := by
  induction vs with
  | nil => exact fun values start i _ => by rw [if_neg (by rw [List.length_nil]; omega)]; rfl
  | cons v vs ih =>
    intro values start i hsize
    rw [List.length_cons] at hsize ⊢
    rw [overwrite, ih _ _ _ (by rw [Array.size_setIfInBounds]; omega), Array.getElem?_setIfInBounds]
    by_cases hi : start = i
    · subst hi
      rw [if_neg (by omega), if_pos rfl, if_pos (by omega), if_pos (by omega), Nat.sub_self]
      rfl
    · by_cases hrange : start + 1 ≤ i ∧ i < start + 1 + vs.length
      · rw [if_pos hrange, if_pos (by omega), show i - start = i - (start + 1) + 1 by omega]
        rfl
      · rw [if_neg hrange, if_neg hi, if_neg (by omega)]

theorem rangeStart_eq_ok {s l : Int32} {n i : Nat} (hrange : rangeStart s l n = .ok i) :
    i = s.toInt.toNat ∧ i + l.toInt.toNat ≤ n := by
  unfold rangeStart at hrange
  split at hrange
  · obtain rfl := Except.ok.inj hrange
    exact ⟨rfl, by omega⟩
  · cases hrange

/-- **Copying a range.** -/
theorem overwrites_copyRange {source target : ObjectId} {position targetPosition length : Int32}
    (hcopy : h.copyRange source position target targetPosition length = .ok h') :
    ∃ elem values targetElem targetValues, h.object source = .array elem values ∧
      h.object target = .array targetElem targetValues ∧
      h.Overwrites h' target targetPosition.toInt.toNat length.toInt.toNat
        (fun k => values.getD (position.toInt.toNat + k) .null) := by
  unfold copyRange at hcopy
  split at hcopy
  · rename_i elem values targetElem targetValues hsource htarget
    split at hcopy
    · split at hcopy
      · cases hcopy
      · rename_i start hstart
        split at hcopy
        · cases hcopy
        · rename_i targetStart htargetStart
          obtain rfl := Except.ok.inj hcopy
          obtain ⟨rfl, hsize⟩ := rangeStart_eq_ok hstart
          obtain ⟨rfl, htargetSize⟩ := rangeStart_eq_ok htargetStart
          refine ⟨elem, values, targetElem, targetValues, hsource, htarget,
            .modify (fun elem' values' ho => ?_) fun x hx hne => ?_⟩
          · obtain ⟨rfl, rfl⟩ := HeapObject.array.inj ((object_of_get? ho).symm.trans htarget)
            refine ⟨_, rfl, fun i => ?_⟩
            have hlength : (values.extract position.toInt.toNat
                (position.toInt.toNat + length.toInt.toNat)).toList.length =
                    length.toInt.toNat := by
              rw [Array.length_toList, Array.size_extract]
              omega
            rw [getElem?_overwrite _ _ _ _ (by rw [hlength]; exact htargetSize), hlength]
            split
            · rename_i hrange
              rw [Array.getElem?_toList, Array.getElem?_extract, if_pos (by omega),
                Array.getD_eq_getD_getElem?, Array.getElem?_eq_getElem (by omega)]
              rfl
            · rfl
          · rw [get?_of_object htarget] at hx
            exact absurd (Option.some.inj hx).symm (hne _ _)
    · cases hcopy
  · cases hcopy
  · cases hcopy

/-- Putting a value into a field leaves arrays alone. -/
theorem overwrites_putField {name : String} {t : Ty} {v : Value}
    (hput : h.putField o name t v = .ok h') : h.Overwrites h' o 0 0 fun _ => .null := by
  unfold putField at hput
  split at hput
  · rename_i c fields ho
    obtain rfl := Except.ok.inj hput
    refine .modify (fun elem values ho' => ?_) fun _ _ _ _ _ => by simp
    rw [object_of_get? ho'] at ho
    cases ho
  · cases hput

end Heap

theorem World.get?_allocate (w : World) (x : HeapObject) :
    (w.allocate x).2.heap.objects.get? w.heap.objects.nextId = some x := by
  rw [World.allocate, Heap.allocate, Table.get?_add, if_pos rfl]

/-! ## 3. The world and the history -/

namespace ElementHistory

/-- The world knows what the history says. -/
structure Agrees (h : ElementHistory) (w : World) : Prop where
  apart : w.store.Apart w.heap.IsArray
  known : ∀ o id, w.store.objects.get? o = some id → ∃ x, w.heap.objects.get? o = some x
  written : ∀ e ∈ h.writes, w.heap.IsArray e.object
  /-- What is known of an element was recorded with its last write, if that was recorded. -/
  places : ∀ o, w.heap.IsArray o → ∀ i q, w.store.placeOf o i = some q →
    ∃ e, h.lastWrite o i = some e ∧ (e.recorded.isSome → e.recorded = some (some q))
  values : ∀ o elem values, w.heap.objects.get? o = some (.array elem values) → ∀ i e,
    h.lastWrite o i = some e → e.recorded.isSome → values[i]? = some e.value
  /-- Only some writes are not recorded. -/
  left : ∀ e ∈ h.writes, e.recorded = none → e.way = .copy ∨ ∃ t, e.way = .store t ∧
    ¬t.isTrackedElement

variable {h : ElementHistory} {w : World} {heap : Heap} {store : Store} {o : ObjectId} {way : Way}
  {start length : Nat} {value : Nat → Value}

theorem Agrees.forgets (hh : h.Agrees w) (hs : w.store.Forgets store) :
    h.Agrees { w with store } where
  apart := hs.apart hh.apart
  known o id hid := hh.known o id (hs.objects o id hid)
  written := hh.written
  places o ho i q hq := hh.places o ho i q (hs.placeOf hq)
  values := hh.values
  left := hh.left

/-- **Writes to a range with their sources.** -/
theorem Agrees.write {given : Nat → Option Place} (hh : h.Agrees w)
    (hheap : w.heap.Overwrites heap o start length value)
    (hstore : w.store.Records store w.heap.IsArray o start length given) (ho : w.heap.IsArray o) :
    (h.add (ElementWrite.range o start length way value (some ∘ given))).Agrees
      { w with heap, store } where
  apart := hstore.apart.widen fun a ha => .inl ((hheap.isArray a).mp ha)
  known a id ha := by
    obtain ⟨x, hx⟩ : ∃ x, w.heap.objects.get? a = some x := by
      rcases hstore.objects a id ha with rfl | hold
      · obtain ⟨elem, values, hx⟩ := ho
        exact ⟨_, hx⟩
      · exact hh.known a id hold
    exact hheap.known a x hx
  written e he := by
    rw [hheap.isArray]
    rcases List.mem_append.mp he with he | he
    · obtain ⟨k, -, rfl⟩ := List.mem_map.mp he
      exact ho
    · exact hh.written e he
  places a ha i q hq := by
    rw [hheap.isArray] at ha
    have hplaces := hstore.places a ha i q hq
    rw [lastWrite_add_range]
    split at hplaces
    · rw [if_pos ‹_›]
      exact ⟨_, rfl, fun _ => congrArg some hplaces⟩
    · rw [if_neg ‹_›]
      exact hh.places a ha i q hplaces
  values a elem values ha i e he hrecorded := by
    obtain ⟨old, hold, hvalues⟩ := hheap.values a elem values ha
    rw [lastWrite_add_range] at he
    rw [hvalues]
    split at he
    · rw [if_pos ‹_›, ← Option.some.inj he]
    · rw [if_neg ‹_›]
      exact hh.values a elem old hold i e he hrecorded
  left e he hnone := by
    rcases List.mem_append.mp he with he | he
    · obtain ⟨k, -, rfl⟩ := List.mem_map.mp he
      cases hnone
    · exact hh.left e he hnone

/-- Writes that are not recorded, noted beforehand. -/
theorem Agrees.note (hh : h.Agrees w) (ho : w.heap.IsArray o)
    (hway : way = .copy ∨ ∃ t, way = .store t ∧ ¬t.isTrackedElement) :
    (h.add (ElementWrite.range o start length way value fun _ => none)).Agrees w where
  apart := hh.apart
  known := hh.known
  written e he := by
    rcases List.mem_append.mp he with he | he
    · obtain ⟨k, -, rfl⟩ := List.mem_map.mp he
      exact ho
    · exact hh.written e he
  places a ha i q hq := by
    rw [lastWrite_add_range]
    split
    · exact ⟨_, rfl, by simp⟩
    · exact hh.places a ha i q hq
  values a elem values ha i e he hrecorded := by
    rw [lastWrite_add_range] at he
    split at he
    · rw [← Option.some.inj he] at hrecorded
      cases hrecorded
    · exact hh.values a elem values ha i e he hrecorded
  left e he hnone := by
    rcases List.mem_append.mp he with he | he
    · obtain ⟨k, -, rfl⟩ := List.mem_map.mp he
      exact hway
    · exact hh.left e he hnone

/-- A range of which no write is recorded may get other values. -/
theorem Agrees.leave (hh : h.Agrees w) (hheap : w.heap.Overwrites heap o start length value)
    (hlast : ∀ i, start ≤ i → i < start + length → ∀ e, h.lastWrite o i = some e →
      e.recorded = none) :
    h.Agrees { w with heap } where
  apart := hh.apart.widen fun a ha => .inl ((hheap.isArray a).mp ha)
  known a id ha := by
    obtain ⟨x, hx⟩ := hh.known a id ha
    exact hheap.known a x hx
  written e he := (hheap.isArray _).mpr (hh.written e he)
  places a ha i q hq := hh.places a ((hheap.isArray a).mp ha) i q hq
  values a elem values ha i e he hrecorded := by
    obtain ⟨old, hold, hvalues⟩ := hheap.values a elem values ha
    rw [hvalues]
    split
    · rename_i hrange
      obtain ⟨rfl, hle, hlt⟩ := hrange
      rw [hlast i hle hlt e he] at hrecorded
      cases hrecorded
    · exact hh.values a elem old hold i e he hrecorded
  left := hh.left

/-- **Writes to a range that are not recorded.** -/
theorem Agrees.overwrite (hh : h.Agrees w) (hheap : w.heap.Overwrites heap o start length value)
    (ho : w.heap.IsArray o) (hway : way = .copy ∨ ∃ t, way = .store t ∧ ¬t.isTrackedElement) :
    (h.add (ElementWrite.range o start length way value fun _ => none)).Agrees { w with heap } := by
  refine (hh.note ho hway).leave hheap fun i hle hlt e he => ?_
  rw [lastWrite_add_range, if_pos ⟨rfl, hle, hlt⟩] at he
  rw [← Option.some.inj he]

/-- The next object has no tracker yet. -/
theorem Agrees.fresh (hh : h.Agrees w) : w.store.objects.get? w.heap.objects.nextId = none := by
  cases hid : w.store.objects.get? w.heap.objects.nextId with
  | none => rfl
  | some id =>
    obtain ⟨x, hx⟩ := hh.known _ id hid
    rw [Table.get?_nextId] at hx
    cases hx

/-- **A new object** has no tracker and no history. -/
theorem Agrees.allocate (hh : h.Agrees w) (x : HeapObject) : h.Agrees (w.allocate x).2 := by
  have hnew : w.heap.objects.get? w.heap.objects.nextId = none := Table.get?_nextId _
  have hnone := hh.fresh
  have hold (a : ObjectId) (ha : (w.heap.allocate x).2.IsArray a) :
      w.heap.IsArray a ∨ a = w.heap.objects.nextId := by
    rw [Heap.isArray_allocate] at ha
    split at ha
    · exact .inr ‹_›
    · exact .inl ha
  have hget (a : ObjectId) : (w.heap.allocate x).2.objects.get? a =
      if a = w.heap.objects.nextId then some x else w.heap.objects.get? a := Table.get?_add _ _ _
  refine ⟨hh.apart.widen fun a ha => ?_, fun a id ha => ?_, fun e he => ?_, fun a ha i q hq => ?_,
    fun a elem values ha i e he => ?_, hh.left⟩
  · exact (hold a ha).imp_right fun hnext => by rw [hnext, hnone]
  · obtain ⟨y, hy⟩ := hh.known a id ha
    show ∃ x', (w.heap.allocate x).2.objects.get? a = some x'
    rw [hget]
    split
    · exact ⟨x, rfl⟩
    · exact ⟨y, hy⟩
  · show (w.heap.allocate x).2.IsArray e.object
    obtain ⟨elem, values, he⟩ := hh.written e he
    rw [Heap.isArray_allocate, if_neg]
    · exact ⟨elem, values, he⟩
    · intro hnext
      rw [hnext, hnew] at he
      cases he
  · rcases hold a ha with ha | rfl
    · exact hh.places a ha i q hq
    · change w.store.placeOf _ i = some q at hq
      simp [Store.placeOf, hnone] at hq
  · change (w.heap.allocate x).2.objects.get? a = _ at ha
    obtain ⟨hmem, hobject, -⟩ := object_of_lastWrite he
    obtain ⟨elem', values', hget'⟩ := hh.written e hmem
    rw [hget, if_neg] at ha
    · exact hh.values a elem values ha i e he
    · rintro rfl
      rw [hobject, hnew] at hget'
      cases hget'

/-- **A new array** with the values of another one and their sources. -/
theorem Agrees.clone {elem : Ty} {values : Array Value} {given : Nat → Option Place}
    (hh : h.Agrees w)
    (hstore : w.store.Records store (w.allocate (.array elem values)).2.heap.IsArray
      w.heap.objects.nextId 0 values.size given) :
    (h.add (ElementWrite.range w.heap.objects.nextId 0 values.size .clone (values.getD · .null)
      (some ∘ given))).Agrees { (w.allocate (.array elem values)).2 with store } := by
  have hnew := w.get?_allocate (.array elem values)
  refine (hh.allocate _).write (.refl fun elem' values' hvalues i hi => ?_) hstore ⟨_, _, hnew⟩
  obtain ⟨rfl, rfl⟩ := HeapObject.array.inj (Option.some.inj (hvalues.symm.trans hnew))
  simp [show i < values'.size by omega]

/-- **Strings and call records** change nothing. -/
theorem robust_agrees (h : ElementHistory) : World.Robust h.Agrees where
  literals _ hh := ⟨hh.apart, hh.known, hh.written, hh.places, hh.values, hh.left⟩
  string _ hh := hh.allocate _
  records _ _ hh := hh.forgets ⟨rfl, fun _ _ h => h⟩
  tracker alive o hh := hh.forgets (Store.forgets_trackerOf _ alive o)
  source {w} alive {o} index length source sourceIndex hh ho := by
    obtain ⟨chars, ho⟩ := ho
    have hno : ¬w.heap.IsArray o := by
      rintro ⟨elem, values, ho'⟩
      rw [ho] at ho'
      cases ho'
    have hrecords := Store.setSource_records hh.apart o (fun h => absurd h hno) alive
      index length source sourceIndex
    refine ⟨hrecords.apart, fun a id ha => ?_, hh.written, fun a ha i q hq => ?_,
      hh.values, hh.left⟩
    · rcases hrecords.objects a id ha with rfl | hold
      · exact ⟨_, ho⟩
      · exact hh.known a id hold
    · have hplaces := hrecords.places a ha i q hq
      rw [if_neg (by rintro ⟨rfl, -⟩; exact hno ha)] at hplaces
      exact hh.places a ha i q hplaces

end ElementHistory

end Provenance
