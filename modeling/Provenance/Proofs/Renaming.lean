/-
# Objects under other names

A run that makes copies of its strings has more objects than one that does not, under other numbers.
A `Renaming` says which objects of the one stand for which of the other: an object has one
counterpart in the run with the copies, a string any number of them.  New objects make it grow.

`Heap.Renamed` says that two heaps hold the same under a renaming.  What reads a heap then reads the
same in both, and what changes one keeps them so.  Only the identity of two copies differs
(`Heap.areCopies`).
-/
import Mathlib.Data.List.Forall2
import Provenance.Proofs.HookEffects
import Provenance.Proofs.SameWorld

namespace Provenance

/-! ## 1. Renamings -/

/-- Which objects of one run stand for which of another, and the texts of those that are strings. -/
structure Renaming where
  rel : ObjectId → ObjectId → Prop
  text : ObjectId → Option (Array Char)
  unique : ∀ {o₁ o₂ o' : ObjectId}, rel o₁ o' → rel o₂ o' → o₁ = o₂
  apart : ∀ {o o₁ o₂ : ObjectId}, rel o o₁ → rel o o₂ → o₁ = o₂ ∨ (text o).isSome

namespace Renaming

/-- No object stands for another one. -/
def empty : Renaming := ⟨fun _ _ => False, fun _ => none, fun h => h.elim, fun h => h.elim⟩

/-- A renaming that knows more objects. -/
structure Grows (R R' : Renaming) : Prop where
  rel : ∀ {o o' : ObjectId}, R.rel o o' → R'.rel o o'
  text : ∀ {o o' : ObjectId}, R.rel o o' → R'.text o = R.text o

variable {R R₁ R₂ : Renaming}

theorem Grows.refl (R : Renaming) : R.Grows R := ⟨fun h => h, fun _ => rfl⟩

theorem Grows.trans (h₁ : R.Grows R₁) (h₂ : R₁.Grows R₂) : R.Grows R₂ :=
  ⟨fun h => h₂.rel (h₁.rel h), fun h => (h₂.text (h₁.rel h)).trans (h₁.text h)⟩

/-- One more counterpart, of an object that has none yet or of a string. -/
def extend (R : Renaming) (o o' : ObjectId) (t : Option (Array Char)) (hnew : ∀ a, ¬R.rel a o')
    (ht : (∀ a', ¬R.rel o a') ∨ (t.isSome ∧ R.text o = t)) : Renaming where
  rel a a' := R.rel a a' ∨ (a = o ∧ a' = o')
  text a := if a = o then t else R.text a
  unique := by
    rintro o₁ o₂ a' (h₁ | ⟨rfl, rfl⟩) (h₂ | ⟨rfl, h₂⟩)
    · exact R.unique h₁ h₂
    · exact absurd (h₂ ▸ h₁) (hnew _)
    · exact absurd h₂ (hnew _)
    · rfl
  apart := by
    rintro a o₁ o₂ (h₁ | ⟨rfl, rfl⟩) (h₂ | ⟨h₂, rfl⟩)
    · by_cases ha : a = o
      · rcases ht with ht | ⟨ht, -⟩
        · exact absurd (ha ▸ h₁) (ht _)
        · exact Or.inr (by rw [if_pos ha]; exact ht)
      · rw [if_neg ha]
        exact R.apart h₁ h₂
    · subst h₂
      rcases ht with ht | ⟨ht, -⟩
      · exact absurd h₁ (ht _)
      · exact Or.inr (by rw [if_pos rfl]; exact ht)
    · rcases ht with ht | ⟨ht, -⟩
      · exact absurd h₂ (ht _)
      · exact Or.inr (by rw [if_pos rfl]; exact ht)
    · exact Or.inl rfl

variable {o o' : ObjectId} {t : Option (Array Char)} {hnew : ∀ a, ¬R.rel a o'}
  {ht : (∀ a', ¬R.rel o a') ∨ (t.isSome ∧ R.text o = t)}

theorem grows_extend : R.Grows (R.extend o o' t hnew ht) where
  rel h := Or.inl h
  text := by
    intro a a' h
    show (if a = o then t else R.text a) = R.text a
    split
    · rename_i ha
      rcases ht with ht | ⟨-, ht⟩
      · exact absurd (ha ▸ h) (ht _)
      · rw [ha, ht]
    · rfl

end Renaming

/-! ## 2. Values and objects -/

/-- The same value, but for the number of an object. -/
inductive Value.Renamed (R : Renaming) : Value → Value → Prop where
  | same {v : Value} (hv : v.object? = none) : Renamed R v v
  | ref {o o' : ObjectId} (h : R.rel o o') : Renamed R (.ref o) (.ref o')

variable {R R' : Renaming} {v v' : Value}

theorem Value.Renamed.grow (h : Value.Renamed R v v') (hR : R.Grows R') :
    Value.Renamed R' v v' := by
  cases h with
  | same hv => exact .same hv
  | ref h => exact .ref (hR.rel h)

theorem Value.Renamed.narrowed (h : Value.Renamed R v v') (t : Ty) :
    Value.Renamed R (v.narrowed t) (v'.narrowed t) := by
  cases h with
  | @same v hv =>
    refine .same ?_
    cases v with
    | ref o => cases hv
    | _ => rfl
  | ref h => exact .ref h

theorem Value.renamed_defaultFor (R : Renaming) (t : Ty) :
    Value.Renamed R (Value.defaultFor t) (Value.defaultFor t) := by
  cases t <;> exact .same rfl

/-- The characters of a string. -/
def HeapObject.chars? : HeapObject → Option (Array Char)
  | .string chars => some chars
  | _ => none

/-- Objects that hold the same under a renaming. -/
inductive HeapObject.Renamed (R : Renaming) : HeapObject → HeapObject → Prop where
  | array {elem : Ty} {values values' : Array Value}
      (h : List.Forall₂ (Value.Renamed R) values.toList values'.toList) :
      Renamed R (.array elem values) (.array elem values')
  | string (chars : Array Char) : Renamed R (.string chars) (.string chars)
  | «instance» {className : String} {fields fields' : List (String × Value)}
      (h : List.Forall₂ (fun e e' => e'.1 = e.1 ∧ Value.Renamed R e.2 e'.2) fields fields') :
      Renamed R (.instance className fields) (.instance className fields')

variable {x x' : HeapObject}

theorem HeapObject.Renamed.grow (h : HeapObject.Renamed R x x') (hR : R.Grows R') :
    HeapObject.Renamed R' x x' := by
  cases h with
  | array h => exact .array (h.imp fun _ _ hv => hv.grow hR)
  | string chars => exact .string chars
  | «instance» h => exact .instance (h.imp fun _ _ he => ⟨he.1, he.2.grow hR⟩)

theorem HeapObject.Renamed.chars (h : HeapObject.Renamed R x x') : x'.chars? = x.chars? := by
  cases h <;> rfl

theorem HeapObject.renamed_newArray (R : Renaming) (t : Ty) (n : Nat) :
    HeapObject.Renamed R (.newArray t n) (.newArray t n) := by
  refine .array (List.forall₂_same.mpr fun v hv => ?_)
  rw [Array.toList_replicate] at hv
  rw [List.eq_of_mem_replicate hv]
  exact Value.renamed_defaultFor R t

/-! ## 3. What may fail -/

/-- Two computations that give related results, or fail in the same kind of way. -/
inductive Both {α : Type} (P : α → α → Prop) : Except RunError α → Except RunError α → Prop where
  | ok {a a' : α} (h : P a a') : Both P (.ok a) (.ok a')
  | failed {e e' : RunError} (he : e'.kind = e.kind) : Both P (.error e) (.error e')

namespace Both

variable {α β : Type} {P : α → α → Prop} {Q : β → β → Prop} {r r' : Except RunError α}

theorem bind {f f' : α → Except RunError β} (h : Both P r r')
    (hf : ∀ a a', P a a' → Both Q (f a) (f' a')) : Both Q (r >>= f) (r' >>= f') := by
  cases h with
  | ok h => exact hf _ _ h
  | failed he => exact .failed he

theorem map {f f' : α → β} (h : Both P r r') (hf : ∀ a a', P a a' → Q (f a) (f' a')) :
    Both Q (f <$> r) (f' <$> r') := by
  cases h with
  | ok h => exact .ok (hf _ _ h)
  | failed he => exact .failed he

theorem refl (hP : ∀ a, P a a) (r : Except RunError α) : Both P r r := by
  cases r with
  | ok a => exact .ok (hP a)
  | error e => exact .failed rfl

end Both

/-! ## 4. Lists of values -/

section Lists

variable {α : Type} {P : α → α → Prop}

theorem rel_getElem? {l l' : List α} (h : List.Forall₂ P l l') (i : Nat) :
    Option.Rel P l[i]? l'[i]? := by
  induction h generalizing i with
  | nil => exact .none
  | cons ha _ ih =>
    cases i with
    | zero => exact .some ha
    | succ i => exact ih i

theorem forall₂_set {l l' : List α} (h : List.Forall₂ P l l') (i : Nat) {a a' : α} (ha : P a a') :
    List.Forall₂ P (l.set i a) (l'.set i a') := by
  induction h generalizing i with
  | nil => exact .nil
  | cons hb h ih =>
    cases i with
    | zero => exact .cons ha h
    | succ i => exact .cons hb (ih i)

theorem size_eq_of_forall₂ {values values' : Array α}
    (h : List.Forall₂ P values.toList values'.toList) : values'.size = values.size := by
  simpa using h.length_eq.symm

end Lists

theorem Heap.forall₂_overwrite {vs vs' : List Value} (hvs : List.Forall₂ (Value.Renamed R) vs vs') :
    ∀ {values values' : Array Value} (start : Nat),
    List.Forall₂ (Value.Renamed R) values.toList values'.toList →
    List.Forall₂ (Value.Renamed R) (overwrite values start vs).toList
      (overwrite values' start vs').toList := by
  induction hvs with
  | nil => exact fun _ h => h
  | cons hv _ ih =>
    intro values values' start h
    refine ih (start + 1) ?_
    rw [Array.toList_setIfInBounds, Array.toList_setIfInBounds]
    exact forall₂_set h start hv

theorem Heap.forall₂_setField {name : String} {fields fields' : List (String × Value)}
    (hv : Value.Renamed R v v')
    (h : List.Forall₂ (fun e e' => e'.1 = e.1 ∧ Value.Renamed R e.2 e'.2) fields fields') :
    List.Forall₂ (fun e e' => e'.1 = e.1 ∧ Value.Renamed R e.2 e'.2) (setField name v fields)
      (setField name v' fields') := by
  induction h with
  | nil => exact .cons ⟨rfl, hv⟩ .nil
  | @cons e e' fields fields' he h ih =>
    obtain ⟨k, w⟩ := e
    obtain ⟨k', w'⟩ := e'
    obtain ⟨hk, hw⟩ := he
    obtain rfl : k' = k := hk
    unfold setField
    split
    · exact .cons ⟨rfl, hv⟩ h
    · exact .cons ⟨rfl, hw⟩ ih

theorem Heap.rel_lookup {name : String} {fields fields' : List (String × Value)}
    (h : List.Forall₂ (fun e e' => e'.1 = e.1 ∧ Value.Renamed R e.2 e'.2) fields fields') :
    Option.Rel (Value.Renamed R) (fields.lookup name) (fields'.lookup name) := by
  induction h with
  | nil => exact .none
  | @cons e e' fields fields' he h ih =>
    obtain ⟨k, w⟩ := e
    obtain ⟨k', w'⟩ := e'
    obtain ⟨hk, hw⟩ := he
    obtain rfl : k' = k := hk
    rw [List.lookup_cons, List.lookup_cons]
    cases name == k' with
    | true => exact .some hw
    | false => exact ih

/-! ## 5. Heaps -/

/-- Two references that are the same as strings, but not the same. -/
def Heap.areCopies (h : Heap) (a b : Value) : Bool :=
  match h.sameReference a b, h.stringEquals a b with
  | .ok false, .ok true => true
  | _, _ => false

/-- Heaps that hold the same under a renaming. -/
structure Heap.Renamed (R : Renaming) (h h' : Heap) : Prop where
  present : ∀ {o o'}, R.rel o o' → (h.objects.get? o).isSome ∧ (h'.objects.get? o').isSome
  object : ∀ {o o'}, R.rel o o' → HeapObject.Renamed R (h.object o) (h'.object o')
  text : ∀ {o o'}, R.rel o o' → R.text o = (h.object o).chars?

/-- Whether two objects are equal, by the characters of those that are strings. -/
theorem Heap.equalObjects_eq (h : Heap) (x y : ObjectId) : h.equalObjects x y =
    match (h.object x).chars?, (h.object y).chars? with
    | some left, some right => left == right
    | _, _ => x == y := by
  unfold equalObjects HeapObject.chars?
  cases h.object x <;> cases h.object y <;> rfl

namespace Heap.Renamed

variable {h h' : Heap} {o o' : ObjectId} {a a' b b' : Value}

/-- The characters of a counterpart. -/
theorem chars (hh : h.Renamed R h') (ho : R.rel o o') : (h'.object o').chars? = R.text o :=
  (hh.object ho).chars.trans (hh.text ho).symm

/-! ### Values -/

/-- A reading that makes no difference between objects. -/
theorem reads {α : Type} {f f' : Value → Except RunError α} (hv : Value.Renamed R v v')
    (hsame : ∀ v, Both Eq (f v) (f' v)) (href : ∀ o o', Both Eq (f (.ref o)) (f' (.ref o'))) :
    Both Eq (f v) (f' v') := by
  cases hv with
  | same _ => exact hsame v
  | @ref o o' _ => exact href o o'

theorem int (h h' : Heap) (hv : Value.Renamed R v v') : Both Eq (h.int v) (h'.int v') :=
  reads hv (fun v => by cases v <;> first | exact .ok rfl | exact .failed rfl)
  fun _ _ => .failed rfl

theorem long (h h' : Heap) (hv : Value.Renamed R v v') : Both Eq (h.long v) (h'.long v') :=
  reads hv (fun v => by cases v <;> first | exact .ok rfl | exact .failed rfl)
  fun _ _ => .failed rfl

theorem float (h h' : Heap) (hv : Value.Renamed R v v') : Both Eq (h.float v) (h'.float v') :=
  reads hv (fun v => by cases v <;> first | exact .ok rfl | exact .failed rfl)
  fun _ _ => .failed rfl

theorem double (h h' : Heap) (hv : Value.Renamed R v v') : Both Eq (h.double v) (h'.double v') :=
  reads hv (fun v => by cases v <;> first | exact .ok rfl | exact .failed rfl)
  fun _ _ => .failed rfl

theorem reference (h h' : Heap) (hv : Value.Renamed R v v') :
    Both (Option.Rel R.rel) (h.reference v) (h'.reference v') := by
  cases hv with
  | @same v hv =>
    cases v with
    | ref o => cases hv
    | null => exact .ok .none
    | _ => exact .failed rfl
  | ref hrel => exact .ok (.some hrel)

theorem target (h h' : Heap) (context context' : String) (hv : Value.Renamed R v v') :
    Both R.rel (h.target context v) (h'.target context' v') := by
  have href := reference h h' hv
  unfold Heap.target
  generalize h.reference v = r at href ⊢
  generalize h'.reference v' = r' at href ⊢
  cases href with
  | failed he => exact .failed he
  | ok hrel =>
    cases hrel with
    | none => exact .failed rfl
    | some hrel => exact .ok hrel

/-! ### Comparisons -/

/-- Two objects are equal in both heaps or in none. -/
theorem equalObjects (hh : h.Renamed R h') (hx : R.rel o o') {y y' : ObjectId} (hy : R.rel y y') :
    h'.equalObjects o' y' = h.equalObjects o y := by
  rw [equalObjects_eq, equalObjects_eq, hh.chars hx, hh.chars hy, ← hh.text hx, ← hh.text hy]
  cases hchars : R.text o with
  | some left =>
    cases hchars' : R.text y with
    | some right => rfl
    | none =>
      -- one is a string, the other one is none
      have hne : o ≠ y := fun heq => by simp [← heq, hchars] at hchars'
      have hne' : o' ≠ y' := fun heq => hne (R.unique hx (heq ▸ hy))
      simp [hne, hne']
  | none =>
    have hiff : o' = y' ↔ o = y := by
      refine ⟨fun heq => R.unique hx (heq ▸ hy), fun heq => ?_⟩
      subst heq
      refine (R.apart hx hy).resolve_right ?_
      simp [hchars]
    simp [hiff]

/-- **Two references that are not copies of each other** are the same in both heaps or in none. -/
theorem sameReference (hh : h.Renamed R h') (ha : Value.Renamed R a a') (hb : Value.Renamed R b b')
    (hcopies : h'.areCopies a' b' = false) :
    Both Eq (h.sameReference a b) (h'.sameReference a' b') := by
  have hra := reference h h' ha
  have hrb := reference h h' hb
  unfold Heap.areCopies Heap.stringEquals at hcopies
  unfold Heap.sameReference at hcopies ⊢
  generalize h.reference a = r at hra ⊢
  generalize h'.reference a' = r' at hra hcopies ⊢
  generalize h.reference b = q at hrb ⊢
  generalize h'.reference b' = q' at hrb hcopies ⊢
  cases hra with
  | failed he => exact .failed he
  | ok hra =>
    cases hrb with
    | failed he => exact .failed he
    | ok hrb =>
      refine .ok ?_
      cases hra with
      | none => cases hrb <;> rfl
      | @some x x' hx =>
        cases hrb with
        | none => rfl
        | @some y y' hy =>
          by_cases hxy : x = y
          · subst hxy
            rcases R.apart hx hy with rfl | hstring
            · simp
            · -- both are strings, of the same text
              obtain ⟨chars, hchars⟩ := Option.isSome_iff_exists.mp hstring
              have hx' := (hh.chars hx).trans hchars
              have hy' := (hh.chars hy).trans hchars
              have hequal : h'.equalObjects x' y' = true := by
                rw [equalObjects_eq, hx', hy']
                exact beq_self_eq_true chars
              simp only [hequal] at hcopies
              cases hsame : some x' == some y' with
              | true => simp
              | false =>
                rw [hsame] at hcopies
                exact absurd hcopies (by simp)
          · have hxy' : x' ≠ y' := fun heq => hxy (R.unique hx (heq ▸ hy))
            simp only [Option.some_beq_some, beq_eq_false_iff_ne.mpr hxy,
              beq_eq_false_iff_ne.mpr hxy']

/-- **Two references compared in the sense of strings** are equal in both heaps or in none. -/
theorem stringEquals (hh : h.Renamed R h') (ha : Value.Renamed R a a') (hb : Value.Renamed R b b') :
    Both Eq (h.stringEquals a b) (h'.stringEquals a' b') := by
  have hra := reference h h' ha
  have hrb := reference h h' hb
  unfold Heap.stringEquals
  generalize h.reference a = r at hra ⊢
  generalize h'.reference a' = r' at hra ⊢
  generalize h.reference b = q at hrb ⊢
  generalize h'.reference b' = q' at hrb ⊢
  cases hra with
  | failed he => exact .failed he
  | ok hra =>
    cases hrb with
    | failed he => exact .failed he
    | ok hrb =>
      refine .ok ?_
      cases hra with
      | none => cases hrb <;> rfl
      | @some x x' hx =>
        cases hrb with
        | none => rfl
        | @some y y' hy => exact (hh.equalObjects hx hy).symm

/-! ### Reading -/

theorem length (hh : h.Renamed R h') (ho : R.rel o o') : Both Eq (h.length o) (h'.length o') := by
  have hobject := hh.object ho
  unfold Heap.length
  generalize h.object o = x at hobject ⊢
  generalize h'.object o' = x' at hobject ⊢
  cases hobject with
  | array hvalues => exact .ok (size_eq_of_forall₂ hvalues).symm
  | string chars => exact .ok rfl
  | «instance» _ => exact .failed rfl

theorem load (hh : h.Renamed R h') (ho : R.rel o o') (index : Int32) :
    Both (Value.Renamed R) (h.load o index) (h'.load o' index) := by
  have hobject := hh.object ho
  unfold Heap.load
  generalize h.object o = x at hobject ⊢
  generalize h'.object o' = x' at hobject ⊢
  cases hobject with
  | @array elem values values' hvalues =>
    simp only [size_eq_of_forall₂ hvalues]
    cases Heap.place index values.size with
    | error e => exact .failed rfl
    | ok i =>
      refine .ok ?_
      rw [Array.getD_eq_getD_getElem?, Array.getD_eq_getD_getElem?, ← Array.getElem?_toList,
        ← Array.getElem?_toList]
      have hrel := rel_getElem? hvalues i
      generalize values.toList[i]? = u at hrel ⊢
      generalize values'.toList[i]? = u' at hrel ⊢
      cases hrel with
      | none => exact .same rfl
      | some hv => exact hv
  | string chars => exact .failed rfl
  | «instance» _ => exact .failed rfl

theorem elementPlace (hh : h.Renamed R h') (ho : R.rel o o') (index : Int32) :
    Both Eq (h.elementPlace o index) (h'.elementPlace o' index) := by
  have hobject := hh.object ho
  unfold Heap.elementPlace
  generalize h.object o = x at hobject ⊢
  generalize h'.object o' = x' at hobject ⊢
  cases hobject with
  | array hvalues =>
    simp only [size_eq_of_forall₂ hvalues]
    exact .refl (fun _ => rfl) _
  | string chars => exact .failed rfl
  | «instance» _ => exact .failed rfl

theorem getField (hh : h.Renamed R h') (ho : R.rel o o') (name : String) (t : Ty) :
    Both (Value.Renamed R) (h.getField o name t) (h'.getField o' name t) := by
  have hobject := hh.object ho
  unfold Heap.getField
  generalize h.object o = x at hobject ⊢
  generalize h'.object o' = x' at hobject ⊢
  cases hobject with
  | array _ => exact .failed rfl
  | string chars => exact .failed rfl
  | @«instance» className fields fields' hfields =>
    refine .ok ?_
    have hrel : Option.Rel (Value.Renamed R) (fields.lookup name) (fields'.lookup name) :=
      Heap.rel_lookup hfields
    generalize fields.lookup name = u at hrel ⊢
    generalize fields'.lookup name = u' at hrel ⊢
    cases hrel with
    | none => exact Value.renamed_defaultFor R t
    | some hv => exact hv

theorem charAt (hh : h.Renamed R h') (ho : R.rel o o') (index : Int32) :
    Both Eq (h.charAt o index) (h'.charAt o' index) := by
  have hobject := hh.object ho
  unfold Heap.charAt
  generalize h.object o = x at hobject ⊢
  generalize h'.object o' = x' at hobject ⊢
  cases hobject with
  | array _ => exact .failed rfl
  | string chars => exact .refl (fun _ => rfl) _
  | «instance» _ => exact .failed rfl

theorem duplicate (hh : h.Renamed R h') (ho : R.rel o o') :
    Both (HeapObject.Renamed R) (h.duplicate o) (h'.duplicate o') := by
  have hobject := hh.object ho
  unfold Heap.duplicate
  generalize h.object o = x at hobject ⊢
  generalize h'.object o' = x' at hobject ⊢
  cases hobject with
  | array hvalues => exact .ok (.array hvalues)
  | string chars => exact .failed rfl
  | «instance» _ => exact .failed rfl

/-! ### Arithmetic -/

theorem binary (h h' : Heap) (op : BinaryOp) (t : Ty) (ha : Value.Renamed R a a')
    (hb : Value.Renamed R b b') :
    Both (Value.Renamed R) (h.binary op t a b) (h'.binary op t a' b') := by
  have hreturn {α : Type} {f : α → Value} (hf : ∀ x, (f x).object? = none) (r : Except RunError α) :
      Both (Value.Renamed R) (do return f (← r)) (do return f (← r)) :=
    (Both.refl (P := Eq) (fun _ => rfl) r).bind fun x x' hx => hx ▸ .ok (.same (hf x))
  have hints : Both (Value.Renamed R)
      (do return .int (← Heap.integral (op.onInt (← h.int a) (← h.int b))))
      (do return .int (← Heap.integral (op.onInt (← h'.int a') (← h'.int b')))) := by
    refine (int h h' ha).bind fun x _ hx => (int h h' hb).bind fun y _ hy => ?_
    subst hx hy
    exact hreturn (fun _ => rfl) _
  unfold Heap.binary
  cases t with
  | long =>
    have hrest {y y' : Int64} (hy : y = y') : Both (Value.Renamed R)
        (do return .long (← Heap.integral (op.onLong (← h.long a) y)))
        (do return .long (← Heap.integral (op.onLong (← h'.long a') y'))) := by
      refine (long h h' ha).bind fun x _ hx => ?_
      subst hx hy
      exact hreturn (fun _ => rfl) _
    simp only
    split
    · refine Both.bind (P := Eq) ((int h h' hb).map fun _ _ hn => ?_) fun _ _ hy => hrest hy
      rw [hn]
    · exact (long h h' hb).bind fun _ _ hy => hrest hy
  | float =>
    refine (float h h' ha).bind fun x _ hx => (float h h' hb).bind fun y _ hy => ?_
    subst hx hy
    exact hreturn (fun _ => rfl) _
  | double =>
    refine (double h h' ha).bind fun x _ hx => (double h h' hb).bind fun y _ hy => ?_
    subst hx hy
    exact hreturn (fun _ => rfl) _
  | _ => exact hints

theorem convert (h h' : Heap) (t : Ty) (ha : Value.Renamed R a a') :
    Both (Value.Renamed R) (h.convert t a) (h'.convert t a') := by
  have hlong : Both Eq (h.toLong a) (h'.toLong a') :=
    reads ha (fun v => by cases v <;> first | exact .ok rfl | exact .failed rfl)
    fun _ _ => .failed rfl
  have hsingle : Both Eq (h.toSingle a) (h'.toSingle a') :=
    reads ha (fun v => by cases v <;> first | exact .ok rfl | exact .failed rfl)
    fun _ _ => .failed rfl
  have hdouble : Both Eq (h.toDouble a) (h'.toDouble a') :=
    reads ha (fun v => by cases v <;> first | exact .ok rfl | exact .failed rfl)
    fun _ _ => .failed rfl
  have hint : Both Eq (h.toInt a) (h'.toInt a') :=
    reads ha (fun v => by cases v <;> first | exact .ok rfl | exact .failed rfl)
    fun _ _ => .failed rfl
  have hmap {α : Type} {f : α → Value} (hf : ∀ x, (f x).object? = none) {r r' : Except RunError α}
      (hr : Both Eq r r') : Both (Value.Renamed R) (f <$> r) (f <$> r') :=
    hr.map fun x _ hx => hx ▸ .same (hf x)
  unfold Heap.convert
  cases t with
  | long => exact hmap (fun _ => rfl) hlong
  | float => exact hmap (fun _ => rfl) hsingle
  | double => exact hmap (fun _ => rfl) hdouble
  | int | byte | char | short | boolean => exact hmap (fun _ => rfl) hint
  | _ => exact .failed rfl

/-! ### Changes -/

/-- **A new object** on both heaps. -/
theorem allocate (hh : h.Renamed R h') {x x' : HeapObject} (hx : HeapObject.Renamed R x x') :
    ∃ R', R.Grows R' ∧ R'.rel (h.allocate x).1 (h'.allocate x').1 ∧
      (h.allocate x).2.Renamed R' (h'.allocate x').2 := by
  have hfresh : ∀ a', ¬R.rel h.objects.nextId a' := fun a' ha => by
    have := (hh.present ha).1
    rw [Table.get?_nextId] at this
    cases this
  have hfresh' : ∀ a, ¬R.rel a h'.objects.nextId := fun a ha => by
    have := (hh.present ha).2
    rw [Table.get?_nextId] at this
    cases this
  have hold {a a' : ObjectId} (ha : R.rel a a') : a ≠ h.objects.nextId ∧ a' ≠ h'.objects.nextId :=
    ⟨fun heq => hfresh a' (heq ▸ ha), fun heq => hfresh' a (heq ▸ ha)⟩
  have hgrows :
      R.Grows (R.extend h.objects.nextId h'.objects.nextId x.chars? hfresh' (Or.inl hfresh)) :=
    Renaming.grows_extend
  refine ⟨_, hgrows, Or.inr ⟨rfl, rfl⟩, ⟨?_, ?_, ?_⟩⟩
  · intro a a' ha
    show ((h.objects.add x).get? a).isSome ∧ ((h'.objects.add x').get? a').isSome
    rw [Table.get?_add, Table.get?_add]
    rcases ha with ha | ⟨rfl, rfl⟩
    · have := hh.present ha
      split <;> split <;> simp_all
    · simp
  · intro a a' ha
    rw [object_allocate, object_allocate]
    rcases ha with ha | ⟨rfl, rfl⟩
    · rw [if_neg (hold ha).1, if_neg (hold ha).2]
      exact (hh.object ha).grow hgrows
    · rw [if_pos rfl, if_pos rfl]
      exact hx.grow hgrows
  · intro a a' ha
    rw [object_allocate]
    show (if a = h.objects.nextId then x.chars? else R.text a) = _
    rcases ha with ha | ⟨rfl, -⟩
    · rw [if_neg (hold ha).1, if_neg (hold ha).1]
      exact hh.text ha
    · rw [if_pos rfl, if_pos rfl]

/-- **A copy of a string** on one of the heaps. -/
theorem copy (hh : h.Renamed R h') (ho : R.rel o o') {chars : Array Char}
    (hchars : h'.object o' = .string chars) :
    ∃ R', R.Grows R' ∧ R'.rel o (h'.allocate (.string chars)).1 ∧
      h.Renamed R' (h'.allocate (.string chars)).2 := by
  have hfresh' : ∀ a, ¬R.rel a h'.objects.nextId := fun a ha => by
    have := (hh.present ha).2
    rw [Table.get?_nextId] at this
    cases this
  have hold {a a' : ObjectId} (ha : R.rel a a') : a' ≠ h'.objects.nextId :=
    fun heq => hfresh' a (heq ▸ ha)
  have htext : R.text o = some chars := by
    rw [← hh.chars ho, hchars]
    rfl
  have hgrows : R.Grows (R.extend o h'.objects.nextId (R.text o) hfresh'
      (Or.inr ⟨by rw [htext]; rfl, rfl⟩)) := Renaming.grows_extend
  refine ⟨_, hgrows, Or.inr ⟨rfl, rfl⟩, ⟨?_, ?_, ?_⟩⟩
  · intro a a' ha
    show (h.objects.get? a).isSome ∧ ((h'.objects.add _).get? a').isSome
    rw [Table.get?_add]
    rcases ha with ha | ⟨rfl, rfl⟩
    · refine ⟨(hh.present ha).1, ?_⟩
      split
      · rfl
      · exact (hh.present ha).2
    · exact ⟨(hh.present ho).1, by simp⟩
  · intro a a' ha
    rw [object_allocate]
    rcases ha with ha | ⟨rfl, rfl⟩
    · rw [if_neg (hold ha)]
      exact (hh.object ha).grow hgrows
    · rw [if_pos rfl]
      have hobject := hh.object ho
      rw [hchars] at hobject
      generalize h.object a = x at hobject ⊢
      cases hobject
      exact .string chars
  · intro a a' ha
    show (if a = o then R.text o else R.text a) = _
    rcases ha with ha | ⟨rfl, -⟩
    · split
      · rename_i heq
        rw [heq]
        exact hh.text ho
      · exact hh.text ha
    · rw [if_pos rfl]
      exact hh.text ho

/-- **A change of an object** that leaves strings as they are. -/
theorem modify (hh : h.Renamed R h') (ho : R.rel o o') {f f' : HeapObject → HeapObject}
    (hf : HeapObject.Renamed R (f (h.object o)) (f' (h'.object o')))
    (hkeeps : (h.object o).chars?.isSome → f (h.object o) = h.object o)
    (hchars : (f (h.object o)).chars? = (h.object o).chars?) :
    (h.modify o f).Renamed R (h'.modify o' f') := by
  have hobject (h : Heap) (o : ObjectId) (f : HeapObject → HeapObject)
        (ho : (h.objects.get? o).isSome)
      (a : ObjectId) : (h.modify o f).object a = if o = a then f (h.object a) else h.object a := by
    unfold Heap.object Heap.modify
    rw [Table.get?_modify]
    split
    · rename_i heq
      subst heq
      obtain ⟨x, hx⟩ := Option.isSome_iff_exists.mp ho
      rw [hx]
      rfl
    · rfl
  have hpresent (h : Heap) (o : ObjectId) (f : HeapObject → HeapObject) (a : ObjectId) :
      ((h.modify o f).objects.get? a).isSome = (h.objects.get? a).isSome := by
    unfold Heap.modify
    rw [Table.get?_modify]
    split
    · rw [Option.isSome_map]
    · rfl
  refine ⟨?_, ?_, ?_⟩
  · intro a a' ha
    rw [hpresent, hpresent]
    exact hh.present ha
  · intro a a' ha
    rw [hobject h o f (hh.present ho).1, hobject h' o' f' (hh.present ho).2]
    by_cases hao : o = a
    · subst hao
      rw [if_pos rfl]
      by_cases hao' : o' = a'
      · rw [if_pos hao', ← hao']
        exact hf
      · -- another counterpart: the object is a string
        rw [if_neg hao', hkeeps]
        · exact hh.object ha
        · rw [← hh.text ha]
          exact (R.apart ho ha).resolve_left hao'
    · have hao' : o' ≠ a' := fun heq => hao (R.unique ho (heq ▸ ha))
      rw [if_neg hao, if_neg hao']
      exact hh.object ha
  · intro a a' ha
    rw [hh.text ha, hobject h o f (hh.present ho).1]
    split
    · rename_i heq
      rw [← heq, hchars]
    · rfl

theorem putElement (hh : h.Renamed R h') (ho : R.rel o o') (i : Nat) (hv : Value.Renamed R v v') :
    (h.putElement o i v).Renamed R (h'.putElement o' i v') := by
  have hobject := hh.object ho
  refine hh.modify ho ?_ ?_ ?_ <;> generalize h.object o = x at hobject ⊢
  · generalize h'.object o' = x' at hobject ⊢
    cases hobject with
    | array hvalues =>
      refine .array ?_
      rw [Array.toList_setIfInBounds, Array.toList_setIfInBounds]
      exact forall₂_set hvalues i (hv.narrowed _)
    | string chars => exact .string chars
    | «instance» hfields => exact .instance hfields
  · intro hstring
    cases x with
    | array _ _ => cases hstring
    | _ => rfl
  · cases x <;> rfl

theorem putField (hh : h.Renamed R h') (ho : R.rel o o') (name : String) (t : Ty)
    (hv : Value.Renamed R v v') :
    Both (Heap.Renamed R) (h.putField o name t v) (h'.putField o' name t v') := by
  have hobject := hh.object ho
  unfold Heap.putField
  rcases hx : h.object o with ⟨elem, values⟩ | ⟨chars⟩ | ⟨className, fields⟩ <;>
    rcases hx' : h'.object o' with ⟨elem', values'⟩ | ⟨chars'⟩ | ⟨className', fields'⟩ <;>
    rw [hx, hx'] at hobject <;> cases hobject
  · exact .failed rfl
  · exact .failed rfl
  · rename_i hfields
    refine .ok (hh.modify ho ?_ ?_ ?_)
    · exact .instance (Heap.forall₂_setField (hv.narrowed t) hfields)
    · rw [hx]
      exact fun hstring => nomatch hstring
    · rw [hx]
      rfl

theorem copyRange (hh : h.Renamed R h') (ho : R.rel o o') {target target' : ObjectId}
    (ht : R.rel target target') (position targetPosition length : Int32) :
    Both (Heap.Renamed R) (h.copyRange o position target targetPosition length)
      (h'.copyRange o' position target' targetPosition length) := by
  have hobject := hh.object ho
  have htarget := hh.object ht
  unfold Heap.copyRange
  rcases hx : h.object o with ⟨elem, values⟩ | ⟨chars⟩ | ⟨className, fields⟩ <;>
    rcases hx' : h'.object o' with ⟨elem', values'⟩ | ⟨chars'⟩ | ⟨className', fields'⟩ <;>
    rw [hx, hx'] at hobject <;> cases hobject
  · rename_i hvalues
    rcases hy : h.object target with ⟨elem', values'⟩ | ⟨chars'⟩ | ⟨className', fields'⟩ <;>
      rcases hy' : h'.object target' with ⟨elem'',
        values''⟩ | ⟨chars''⟩ | ⟨className'', fields''⟩ <;>
      rw [hy, hy'] at htarget <;> cases htarget
    · rename_i htargets
      simp only
      split
      · rw [size_eq_of_forall₂ hvalues, size_eq_of_forall₂ htargets]
        split
        · exact .failed rfl
        · split
          · exact .failed rfl
          · refine .ok (hh.modify ht ?_ ?_ ?_)
            · refine .array (Heap.forall₂_overwrite ?_ _ htargets)
              rw [Array.toList_extract, Array.toList_extract]
              exact List.forall₂_take _ (List.forall₂_drop _ hvalues)
            · rw [hy]
              exact fun hstring => nomatch hstring
            · rw [hy]
              rfl
      · exact .failed rfl
    · exact .failed rfl
    · exact .failed rfl
  · exact .failed rfl
  · exact .failed rfl

end Heap.Renamed

end Provenance
