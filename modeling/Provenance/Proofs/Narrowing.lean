/-
# Narrow values in narrow arrays

The element type that an instruction names is not compared with the array it is given, so it is the
heap that keeps the ints in an array of a narrow type within the range of the type: what is put into
an array is narrowed (`fits_narrowInt`), and what is copied comes from an array of the same type.  A
char array that takes up a text is filled another way, and holds the codes of its characters as they
are (`HeapObject.narrow_charArray`).

So wherever a run stands, woven or not, the only ints out of range are in char arrays, and are codes
of characters in the arguments that lie beyond the range (`narrow_arrays`).
-/
import Provenance.Proofs.Preservation
import Provenance.Proofs.Upholding
import Provenance.Tool.Run

namespace Provenance

/-! ## 1. Ranges -/

namespace Ty

/-- The least and the greatest int of a narrow type. -/
def range? : Ty → Option (Int × Int)
  | .byte => some (-128, 127)
  | .short => some (-32768, 32767)
  | .char => some (0, 65535)
  | .boolean => some (0, 1)
  | _ => none

/-- An int is in the range of a type, if that is a narrow one. -/
def Fits (t : Ty) (n : Int32) : Prop := ∀ r ∈ t.range?, r.1 ≤ n.toInt ∧ n.toInt ≤ r.2

instance (t : Ty) (n : Int32) : Decidable (t.Fits n) :=
  inferInstanceAs (Decidable (∀ r ∈ t.range?, r.1 ≤ n.toInt ∧ n.toInt ≤ r.2))

theorem fits_iff {t : Ty} {n : Int32} {lo hi : Int} (h : t.range? = some (lo, hi)) :
    t.Fits n ↔ lo ≤ n.toInt ∧ n.toInt ≤ hi := by
  unfold Fits
  rw [h]
  simp

end Ty

/-- A mask leaves nothing above itself. -/
theorem toInt_and_mask (n : Int32) {mask : Int32} (hmask : 0 ≤ mask.toInt) :
    0 ≤ (n &&& mask).toInt ∧ (n &&& mask).toInt ≤ mask.toInt := by
  have hle : (n &&& mask).toBitVec.toNat ≤ mask.toBitVec.toNat := by
    rw [Int32.toBitVec_and, BitVec.toNat_and]
    exact Nat.and_le_right
  have hsmall : 2 * mask.toBitVec.toNat < 2 ^ 32 := by
    by_contra hlarge
    rw [← Int32.toInt_toBitVec, BitVec.toInt_eq_toNat_cond, if_neg hlarge] at hmask
    omega
  rw [← Int32.toInt_toBitVec, ← Int32.toInt_toBitVec, BitVec.toInt_eq_toNat_of_lt hsmall,
    BitVec.toInt_eq_toNat_of_lt (by omega)]
  omega

/-- **Narrowing** an int puts it in the range of the type. -/
theorem fits_narrowInt (n : Int32) (t : Ty) : t.Fits (narrowInt n t) := by
  cases t with
  | byte =>
    refine (Ty.fits_iff rfl).mpr ?_
    unfold narrowInt
    rw [Int8.toInt_toInt32]
    have hlo := n.toInt8.le_toInt
    have hhi := n.toInt8.toInt_lt
    omega
  | short =>
    refine (Ty.fits_iff rfl).mpr ?_
    unfold narrowInt
    rw [Int16.toInt_toInt32]
    have hlo := n.toInt16.le_toInt
    have hhi := n.toInt16.toInt_lt
    omega
  | char => exact (Ty.fits_iff rfl).mpr (toInt_and_mask n (by decide))
  | boolean => exact (Ty.fits_iff rfl).mpr (toInt_and_mask n (by decide))
  | _ => exact fun r hr => nomatch hr

/-! ## 2. Arrays -/

variable {codes : Int32 → Prop}

/-- If the value is an int, it is in the range of the type; a char may also be one of the codes. -/
def Value.Narrow (codes : Int32 → Prop) (t : Ty) : Value → Prop
  | .int n => t.Fits n ∨ t = .char ∧ codes n
  | _ => True

instance [DecidablePred codes] (t : Ty) : (v : Value) → Decidable (v.Narrow codes t)
  | .int n => inferInstanceAs (Decidable (t.Fits n ∨ t = .char ∧ codes n))
  | .long _ | .float _ | .double _ | .null | .ref _ | .point _ | .record _ => isTrue trivial

theorem Value.narrow_narrowed (v : Value) (t : Ty) : (v.narrowed t).Narrow codes t := by
  cases v with
  | int n => exact .inl (fits_narrowInt n t)
  | _ => trivial

theorem Value.narrow_defaultFor (t : Ty) : (Value.defaultFor t).Narrow codes t := by
  cases t <;> first | trivial | exact .inl (by decide)

namespace HeapObject

/-- If the object is an array, its elements are narrow for their type. -/
def Narrow (codes : Int32 → Prop) : HeapObject → Prop
  | array elem values => ∀ v ∈ values.toList, v.Narrow codes elem
  | _ => True

theorem narrow_newArray (elem : Ty) (length : Nat) : (newArray elem length).Narrow codes := by
  intro v hv
  rw [Array.toList_replicate] at hv
  rw [(List.mem_replicate.mp hv).2]
  exact Value.narrow_defaultFor elem

/-- **The array of a text** holds the codes of its characters, whether they are in range or not. -/
theorem narrow_charArray {text : String}
    (h : ∀ c ∈ text.toList, 0xFFFF < c.toNat → codes (.ofNat c.toNat)) :
    (charArray text).Narrow codes := by
  intro v hv
  obtain ⟨c, hc, rfl⟩ := List.mem_map.mp hv
  by_cases hwide : 0xFFFF < c.toNat
  · exact .inr ⟨rfl, h c hc hwide⟩
  · refine .inl ((Ty.fits_iff rfl).mpr ?_)
    rw [Int32.toInt_ofNat_of_lt (by omega)]
    omega

instance [DecidablePred codes] : (x : HeapObject) → Decidable (x.Narrow codes)
  | array elem values => inferInstanceAs (Decidable (∀ v ∈ values.toList, v.Narrow codes elem))
  | string _ | «instance» _ _ => isTrue trivial

end HeapObject

namespace Heap

/-- The ints in the arrays of a heap are in the ranges of the element types, but that char arrays
may also hold the codes. -/
def Narrow (codes : Int32 → Prop) (h : Heap) : Prop := ∀ o, (h.object o).Narrow codes

variable {h h' : Heap}

theorem narrow_empty : empty.Narrow codes := fun o => by
  simp [object, empty, HeapObject.Narrow]

theorem Narrow.allocate (hh : h.Narrow codes) {x : HeapObject} (hx : x.Narrow codes) :
    (h.allocate x).2.Narrow codes := by
  intro o
  rw [object_allocate]
  split
  · exact hx
  · exact hh o

theorem Narrow.modify (hh : h.Narrow codes) {target : ObjectId} {f : HeapObject → HeapObject}
    (hf : ∀ x, x.Narrow codes → (f x).Narrow codes) : (h.modify target f).Narrow codes := by
  intro o
  rcases object_modify h f target o with heq | heq <;> rw [heq]
  · exact hh o
  · exact hf _ (hh o)

theorem Narrow.putElement (hh : h.Narrow codes) (o : ObjectId) (i : Nat) (v : Value) :
    (h.putElement o i v).Narrow codes := by
  refine hh.modify fun x hx => ?_
  cases x with
  | array elem values => exact forall_setIfInBounds hx (v.narrow_narrowed elem)
  | _ => trivial

theorem Narrow.elements (hh : h.Narrow codes) {o : ObjectId} {elem : Ty} {values : Array Value}
    (ho : h.object o = .array elem values) : ∀ v ∈ values.toList, v.Narrow codes elem := by
  have hx := hh o
  rwa [ho] at hx

theorem Narrow.copyRange (hh : h.Narrow codes) {source target : ObjectId}
    {position targetPosition length : Int32}
    (hcopy : h.copyRange source position target targetPosition length = .ok h') :
    h'.Narrow codes := by
  unfold Heap.copyRange at hcopy
  split at hcopy
  · rename_i elem values targetElem targetValues hs ht
    split at hcopy
    · rename_i heq
      subst heq
      split at hcopy
      · cases hcopy
      · split at hcopy
        · cases hcopy
        · rw [← Except.ok.inj hcopy]
          exact hh.modify fun x _ => forall_copyRange (hh.elements hs) (hh.elements ht)
    · cases hcopy
  · cases hcopy
  · cases hcopy

theorem Narrow.putField (hh : h.Narrow codes) {o : ObjectId} {name : String} {t : Ty} {v : Value}
    (hput : h.putField o name t v = .ok h') : h'.Narrow codes := by
  unfold Heap.putField at hput
  split at hput
  · rw [← Except.ok.inj hput]
    exact hh.modify fun _ _ => trivial
  · cases hput

theorem Narrow.duplicate (hh : h.Narrow codes) {o : ObjectId} {x : HeapObject}
    (hdup : h.duplicate o = .ok x) : x.Narrow codes := by
  unfold Heap.duplicate at hdup
  split at hdup
  · rename_i elem values ho
    obtain rfl := Except.ok.inj hdup
    exact hh.elements ho
  · cases hdup

/-- **No instruction** puts an int out of range into an array that is not one of the codes. -/
theorem narrow_invariant (codes : Int32 → Prop) : World.Invariant fun w => w.heap.Narrow codes where
  literals _ h := h
  string _ h := h.allocate trivial
  newArray elem length h := h.allocate (HeapObject.narrow_newArray elem length)
  duplicate h hx := h.allocate (h.duplicate hx)
  putElement o i v h := h.putElement o i v
  copyRange h hheap := h.copyRange hheap
  putField h hheap := h.putField hheap
  records _ _ h := h
  tracker _ _ h := h
  source _ _ _ _ _ _ h := h
  fieldPoint _ _ _ h := h

end Heap

/-! ## 3. Runs with arguments -/

namespace Tool

/-- The code of a character beyond the range of chars, in the text of a char array among the
arguments. -/
def Wide (texts : List String) (n : Int32) : Prop :=
  ∃ argument ∈ texts, ∃ text, Argument.parse argument = .ok (.chars text) ∧
    ∃ c ∈ text.toList, 0xFFFF < c.toNat ∧ n = .ofNat c.toNat

theorem narrow_argumentValue {w : World} (hw : w.heap.Narrow codes) (label : String) {a : Argument}
    (hcodes : ∀ text, a = .chars text → ∀ c ∈ text.toList, 0xFFFF < c.toNat →
      codes (.ofNat c.toNat)) :
    (argumentValue w label a).2.2.heap.Narrow codes := by
  cases a with
  | int _ | null => exact hw
  | str text => exact hw.allocate trivial
  | buffer length => exact hw.allocate (HeapObject.narrow_newArray .char length)
  | chars text => exact hw.allocate (HeapObject.narrow_charArray (hcodes text rfl))

/-- **Arguments** put only codes of their characters out of range. -/
theorem narrow_argumentValues : ∀ {texts : List String} {w w' : World} {index : Nat}
    {values : List Value} {observed : List Observed}, w.heap.Narrow codes →
    (∀ n, Wide texts n → codes n) → argumentValues w index texts = .ok (values, observed, w') →
    w'.heap.Narrow codes
  | [], w, w', index, values, observed, hw, _, h => by
    obtain ⟨-, -, rfl⟩ : values = [] ∧ observed = [] ∧ w' = w := by
      simpa [argumentValues, eq_comm] using h
    exact hw
  | text :: texts, w, w', index, values, observed, hw, hcodes, h => by
    obtain ⟨a, v, x, w₁, vs, others, ha, hvalue, hrest, -, -⟩ := argumentValues_cons h
    have hw₁ : (World.heap { w₁ with held := v :: w₁.held }).Narrow codes := by
      have hmade := narrow_argumentValue hw ("argument " ++ toString index) (a := a)
        fun rest hrest c hc hwide => hcodes _ ⟨text, List.mem_cons_self, rest, hrest ▸ ha, c,
          hc, hwide, rfl⟩
      rwa [hvalue] at hmade
    refine narrow_argumentValues hw₁ (fun n hn => hcodes n ?_) hrest
    obtain ⟨argument, hargument, hwide⟩ := hn
    exact ⟨argument, List.mem_cons_of_mem _ hargument, hwide⟩

end Tool

/-- **Narrow arrays hold narrow values**, but for characters beyond the range of chars.  Whatever
classes run from the arguments of the command, at every instruction and at the end the ints in the
arrays of a narrow type are in the range of the type; only a char array may also hold the code of
such a character of the arguments. -/
theorem narrow_arrays {texts : List String} {settings : StoreSettings} {store : Store} {index : Nat}
    {values : List Value} {observed : List Tool.Observed} {w₀ w : World}
    (hargs : Tool.argumentValues { World.empty settings with store } index texts =
      .ok (values, observed, w₀)) (hheap : w.heap = w₀.heap)
    (classes : List Class) (limits : MachineSettings) (owner name descriptor : String)
    (args : List Value) :
    let r := (Program.ofClasses Native.builtIn classes).invoke limits w owner name descriptor args
    ∃ executed, (Program.ofClasses Native.builtIn classes).Invokes limits w owner name
    descriptor args
        executed r ∧
      (∀ s ∈ executed, s.world.heap.Narrow (Tool.Wide texts)) ∧
          r.world.heap.Narrow (Tool.Wide texts) := by
  have hinvariant := Heap.narrow_invariant (Tool.Wide texts)
  have hw : w.heap.Narrow (Tool.Wide texts) :=
    hheap ▸ Tool.narrow_argumentValues Heap.narrow_empty (fun _ h => h) hargs
  obtain ⟨executed, hrun⟩ := (Program.ofClasses Native.builtIn classes).exists_invokes
    limits w owner name descriptor args
  have hnatives := Native.builtIn_upholds hinvariant
  rw [← Program.ofClasses_natives Native.builtIn classes] at hnatives
  exact ⟨executed, hrun, hinvariant.invokes hnatives hrun hw⟩

/-- A method that clones an array and puts its first element back where it came from. -/
def cloneAndStore : Method :=
  ⟨"demo/Wide", "run", ⟨[.array .char], .array .char⟩, true, 4, 1,
    [.load 0, .invoke ⟨.virtual, "[C", "clone", ⟨[], .object "java/lang/Object"⟩⟩, .load 0,
      .const (.int 0), .load 0, .const (.int 0), .arrayLoad .char, .arrayStore .char,
      .ret (.array .char)]⟩

/-- The character in the array is narrowed where it is put back, and is still out of range in the
clone. -/
theorem wide_clone : ∃ values observed w₀,
    Tool.argumentValues { World.empty .default with store := .empty .default } 0 ["chars:😀"] =
      .ok (values, observed, w₀) ∧
    let r := (Program.ofClasses Native.builtIn [⟨"demo/Wide", [cloneAndStore]⟩]).invoke ⟨8, 100⟩ w₀
      "demo/Wide" "run" "([C)[C" values
    (r.world.heap.object 1).Narrow (fun _ => False) ∧
    ¬(r.world.heap.object 2).Narrow (fun _ => False) ∧
      r.world.heap.Narrow (Tool.Wide ["chars:😀"]) := by
  have hrun : (Tool.argumentValues { World.empty .default with store := .empty .default } 0
      ["chars:😀"]).toOption.any (fun x =>
        let r := (Program.ofClasses Native.builtIn [⟨"demo/Wide", [cloneAndStore]⟩]).invoke
          ⟨8, 100⟩ x.2.2 "demo/Wide" "run" "([C)[C" x.1
        decide ((r.world.heap.object 1).Narrow (fun _ => False) ∧
          ¬(r.world.heap.object 2).Narrow (fun _ => False))) = true := by decide +kernel
  cases hargs : Tool.argumentValues { World.empty .default with store := .empty .default } 0
      ["chars:😀"] with
  | error e =>
    rw [hargs] at hrun
    cases hrun
  | ok x =>
    obtain ⟨values, observed, w₀⟩ := x
    rw [hargs] at hrun
    obtain ⟨hstored, hcloned⟩ := of_decide_eq_true hrun
    obtain ⟨-, -, -, hend⟩ := narrow_arrays hargs rfl [⟨"demo/Wide", [cloneAndStore]⟩] ⟨8, 100⟩
      "demo/Wide" "run" "([C)[C" values
    exact ⟨values, observed, w₀, rfl, hstored, hcloned, hend⟩

end Provenance
