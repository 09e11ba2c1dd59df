/-
# The common type of the types that meet

Where ways join, the types that arrive in a slot are brought together two at a time, in the order in
which the analysis comes by.  What comes out does not depend on that order.  Section 2 says which
types fit in a slot of which other type, without bringing any together: null fits where a reference
is known, a reference where `Object` is, a small integer where `int` is, and everything where no
type is.  The common type of two types is the least one in which both fit (`mergeTypes_le_iff`), so
that types form a semilattice with no type on top.  Section 4 concludes that any number of types
have one common type, however they are brought together (`Meeting.common_eq_foldl`).
-/
import Mathlib.Order.BoundedOrder.Lattice
import Provenance.Flow.Value

namespace Provenance

/-! ## 1. The ways in which two types meet -/

namespace Ty

theorem isReference_of_isNull {t : Ty} (h : t.isNull = true) : t.isReference = true := by
  obtain rfl : t = null := eq_of_beq h
  rfl

theorem eq_of_isNull {a b : Ty} (ha : a.isNull = true) (hb : b.isNull = true) : a = b :=
  (eq_of_beq ha).trans (eq_of_beq hb).symm

/-- No small integer is a reference. -/
theorem not_isReference_of_isIntLike {t : Ty} (h : t.isIntLike = true) :
    ¬ t.isReference = true := by
  cases t <;> simp [isIntLike, isReference] at h ⊢

theorem isReference_objectClass : (object objectClass).isReference = true := rfl

theorem not_isNull_objectClass : ¬ (object objectClass).isNull = true := by decide

/-- The ways in which two types meet, and the type that comes out. -/
inductive Meets (a b : Ty) : Option Ty → Prop where
  | same (h : a = b) : Meets a b (some a)
  /-- Null gives way to the other one. -/
  | second (hne : a ≠ b) (ha : a.isNull = true) (hb : b.isReference = true) : Meets a b (some b)
  | first (hne : a ≠ b) (ha : a.isReference = true) (hb : b.isNull = true) : Meets a b (some a)
  | references (hne : a ≠ b) (ha : a.isReference = true) (hb : b.isReference = true)
      (hna : ¬ a.isNull = true) (hnb : ¬ b.isNull = true) : Meets a b (some (.object objectClass))
  | integers (hne : a ≠ b) (ha : a.isIntLike = true) (hb : b.isIntLike = true) :
      Meets a b (some .int)
  | apart (hne : a ≠ b) (href : ¬ (a.isReference = true ∧ b.isReference = true))
      (hint : ¬ (a.isIntLike = true ∧ b.isIntLike = true)) : Meets a b none

end Ty

theorem mergeTypes_meets (a b : Ty) : a.Meets b (mergeTypes (some a) (some b)) := by
  simp only [mergeTypes, Bool.and_eq_true]
  split_ifs with heq href ha hb hint
  · exact .same heq
  · exact .second heq ha href.2
  · exact .first heq href.1 hb
  · exact .references heq href.1 href.2 ha hb
  · exact .integers heq hint.1 hint.2
  · exact .apart heq href hint

/-! ## 2. Which type fits where -/

/-- A value of the first type fits in a slot of the second.  No type is that of a slot in which
everything fits. -/
inductive FitsIn : Option Ty → Option Ty → Prop where
  | same (t : Option Ty) : FitsIn t t
  | null {a b : Ty} (ha : a.isNull = true) (hb : b.isReference = true) : FitsIn (some a) (some b)
  | object {a b : Ty} (ha : a.isReference = true) (hb : b = .object Ty.objectClass) :
      FitsIn (some a) (some b)
  | int {a b : Ty} (ha : a.isIntLike = true) (hb : b = .int) : FitsIn (some a) (some b)
  | untyped (t : Option Ty) : FitsIn t none

namespace FitsIn

variable {a b t : Ty} {r s u : Option Ty}

/-- What fits in the slot of a reference is a reference, and what does so in the slot of a small
integer is one. -/
theorem same_kind (h : FitsIn (some a) (some t)) :
    (t.isReference = true → a.isReference = true) ∧ (t.isIntLike = true → a.isIntLike = true) := by
  cases h with
  | same => exact ⟨id, id⟩
  | null ha hb =>
    exact ⟨fun _ => Ty.isReference_of_isNull ha,
      fun hint => absurd hb (Ty.not_isReference_of_isIntLike hint)⟩
  | object ha hb =>
    subst hb
    exact ⟨fun _ => ha, fun hint => absurd hint (by decide)⟩
  | int ha hb =>
    subst hb
    exact ⟨fun href => absurd href (by decide), fun _ => ha⟩

theorem trans (h : FitsIn r s) (h' : FitsIn s u) : FitsIn r u := by
  cases h' with
  | same => exact h
  | untyped => exact .untyped r
  | null hs hu =>
    cases h with
    | same => exact .null hs hu
    | null hr _ => exact .null hr hu
    | object _ hobject => exact absurd hs (hobject ▸ Ty.not_isNull_objectClass)
    | int _ hint =>
      subst hint
      exact absurd (Ty.isReference_of_isNull hs) (by decide)
  | object hs hu =>
    cases r with
    | none => cases h
    | some a => exact .object (h.same_kind.1 hs) hu
  | int hs hu =>
    cases r with
    | none => cases h
    | some a => exact .int (h.same_kind.2 hs) hu

theorem antisymm (h : FitsIn r s) (h' : FitsIn s r) : r = s := by
  cases h with
  | same => rfl
  | untyped => cases h' <;> rfl
  | null ha hb =>
    cases h' with
    | same => rfl
    | null hb' _ => rw [Ty.eq_of_isNull ha hb']
    | object _ hobject => exact absurd ha (hobject ▸ Ty.not_isNull_objectClass)
    | int hint _ => exact absurd hb (Ty.not_isReference_of_isIntLike hint)
  | object ha hobject =>
    subst hobject
    cases h' with
    | same => rfl
    | null hnull _ => exact absurd hnull Ty.not_isNull_objectClass
    | object _ hobject => rw [hobject]
    | int hint _ => exact absurd hint (by decide)
  | int ha hint =>
    subst hint
    cases h' with
    | same => rfl
    | null hnull _ => exact absurd (Ty.isReference_of_isNull hnull) (by decide)
    | object href _ => exact absurd href (by decide)
    | int _ hint => rw [hint]

/-- **A slot in which two different types fit**: they are references, and one of them is null or the
slot is that of `Object`; or they are small integers, and the slot is that of `int`. -/
theorem of_both (ha : FitsIn (some a) (some t)) (hb : FitsIn (some b) (some t)) (hne : a ≠ b) :
    (a.isReference = true ∧ b.isReference = true ∧
      (a.isNull = true ∨ b.isNull = true ∨ t = .object Ty.objectClass)) ∨
    (a.isIntLike = true ∧ b.isIntLike = true ∧ t = .int) := by
  cases ha with
  | same =>
    cases hb with
    | same => exact absurd rfl hne
    | null hnull href => exact .inl ⟨href, Ty.isReference_of_isNull hnull, .inr (.inl hnull)⟩
    | object href hobject =>
      exact .inl ⟨hobject ▸ Ty.isReference_objectClass, href, .inr (.inr hobject)⟩
    | int hint heq => exact .inr ⟨heq ▸ rfl, hint, heq⟩
  | null hnull href => exact .inl ⟨Ty.isReference_of_isNull hnull, hb.same_kind.1 href, .inl hnull⟩
  | object href hobject =>
    exact .inl ⟨href, hb.same_kind.1 (hobject ▸ Ty.isReference_objectClass), .inr (.inr hobject)⟩
  | int hint heq => exact .inr ⟨hint, hb.same_kind.2 (heq ▸ rfl), heq⟩

end FitsIn

/-! ## 3. The least type in which both fit -/

/-- Both types fit in what comes out of them. -/
theorem fitsIn_mergeTypes (s t : Option Ty) :
    FitsIn s (mergeTypes s t) ∧ FitsIn t (mergeTypes s t) := by
  cases s with
  | none => exact ⟨by cases t <;> exact .same none, by cases t <;> exact .untyped _⟩
  | some a =>
    cases t with
    | none => exact ⟨.untyped _, .same none⟩
    | some b =>
      have hmeets := mergeTypes_meets a b
      generalize mergeTypes (some a) (some b) = m at hmeets ⊢
      cases hmeets with
      | same h => exact ⟨.same _, h ▸ .same _⟩
      | second _ ha hb => exact ⟨.null ha hb, .same _⟩
      | first _ ha hb => exact ⟨.same _, .null hb ha⟩
      | references _ ha hb => exact ⟨.object ha rfl, .object hb rfl⟩
      | integers _ ha hb => exact ⟨.int ha rfl, .int hb rfl⟩
      | apart => exact ⟨.untyped _, .untyped _⟩

/-- What comes out of two types fits wherever both of them do. -/
theorem mergeTypes_fitsIn {s t u : Option Ty} (hs : FitsIn s u) (ht : FitsIn t u) :
    FitsIn (mergeTypes s t) u := by
  cases u with
  | none => exact .untyped _
  | some c =>
    cases s with
    | none => cases hs
    | some a =>
      cases t with
      | none => cases ht
      | some b =>
        have hmeets := mergeTypes_meets a b
        generalize mergeTypes (some a) (some b) = m at hmeets ⊢
        -- a slot in which two different types fit says of both what kind of types they are
        cases hmeets with
        | same => exact hs
        | second => exact ht
        | first => exact hs
        | references hne ha hb hna hnb =>
          rcases hs.of_both ht hne with ⟨-, -, hnull | hnull | rfl⟩ | ⟨hint, -, -⟩
          · exact absurd hnull hna
          · exact absurd hnull hnb
          · exact .same _
          · exact absurd ha (Ty.not_isReference_of_isIntLike hint)
        | integers hne ha hb =>
          rcases hs.of_both ht hne with ⟨href, -, -⟩ | ⟨-, -, rfl⟩
          · exact absurd href (Ty.not_isReference_of_isIntLike ha)
          · exact .same _
        | apart hne href hint =>
          rcases hs.of_both ht hne with ⟨ha, hb, -⟩ | ⟨ha, hb, -⟩
          · exact absurd ⟨ha, hb⟩ href
          · exact absurd ⟨ha, hb⟩ hint

/-- Types in the order in which they fit, with their common type. -/
local instance : SemilatticeSup (Option Ty) where
  le := FitsIn
  le_refl := FitsIn.same
  le_trans _ _ _ := FitsIn.trans
  le_antisymm _ _ := FitsIn.antisymm
  sup := mergeTypes
  le_sup_left s t := (fitsIn_mergeTypes s t).1
  le_sup_right s t := (fitsIn_mergeTypes s t).2
  sup_le _ _ _ := mergeTypes_fitsIn

local instance : OrderTop (Option Ty) where
  top := none
  le_top := FitsIn.untyped

/-- **The common type of two types is the least in which both fit.** -/
theorem mergeTypes_le_iff {s t u : Option Ty} : mergeTypes s t ≤ u ↔ s ≤ u ∧ t ≤ u :=
  sup_le_iff

local instance (s t : Option Ty) : Decidable (s ≤ t) :=
  decidable_of_iff (mergeTypes s t = t) sup_eq_right

example : some (.array .char) ≤ some (Ty.object Ty.objectClass) ∧
    ¬ some (.array .char) ≤ some Ty.string := by decide

@[simp] theorem mergeTypes_self (t : Option Ty) : mergeTypes t t = t := sup_idem t

theorem mergeTypes_comm (s t : Option Ty) : mergeTypes s t = mergeTypes t s := sup_comm s t

theorem mergeTypes_assoc (r s t : Option Ty) :
    mergeTypes (mergeTypes r s) t = mergeTypes r (mergeTypes s t) := sup_assoc r s t

/-- The common type of two types absorbs the first of them. -/
theorem mergeTypes_absorbs_left (s t : Option Ty) :
    mergeTypes (mergeTypes s t) s = mergeTypes s t :=
  sup_eq_left.mpr (fitsIn_mergeTypes s t).1

/-- It absorbs the second as well. -/
theorem mergeTypes_absorbs_right (s t : Option Ty) :
    mergeTypes (mergeTypes s t) t = mergeTypes s t := by
  rw [mergeTypes_comm s t]
  exact mergeTypes_absorbs_left t s

/-! ## 4. Any number of types -/

theorem foldl_mergeTypes_le_iff {ts : List (Option Ty)} {t u : Option Ty} :
    ts.foldl mergeTypes t ≤ u ↔ ∀ s ∈ t :: ts, s ≤ u := by
  induction ts generalizing t with
  | nil => simp
  | cons s ts ih =>
    rw [List.foldl_cons, ih]
    simp only [List.forall_mem_cons, mergeTypes_le_iff, and_assoc]

/-- A way to bring types together, two at a time. -/
inductive Meeting where
  | single (t : Option Ty)
  | pair (g h : Meeting)

namespace Meeting

/-- The types that are brought together, from left to right. -/
def types : Meeting → List (Option Ty)
  | single t => [t]
  | pair g h => g.types ++ h.types

/-- The type that comes out. -/
def common : Meeting → Option Ty
  | single t => t
  | pair g h => mergeTypes g.common h.common

theorem common_le_iff {g : Meeting} {u : Option Ty} : g.common ≤ u ↔ ∀ t ∈ g.types, t ≤ u := by
  induction g with
  | single t => simp [common, types]
  | pair g h ihg ihh =>
    simp only [common, types, mergeTypes_le_iff, ihg, ihh, List.forall_mem_append]

/-- **However types are brought together, what comes out is what a fold over them gives**: neither
their order matters, nor how often each of them comes, nor which of them meet first. -/
theorem common_eq_foldl {g : Meeting} {t : Option Ty} {ts : List (Option Ty)}
    (hmem : ∀ u, u ∈ g.types ↔ u ∈ t :: ts) : g.common = ts.foldl mergeTypes t :=
  eq_of_forall_ge_iff fun u => by simp only [common_le_iff, foldl_mergeTypes_le_iff, hmem]

end Meeting

/-- **Types form a semilattice** in which no type is on top: a type meets itself without change, it
does not matter which of two types comes first or which two of three meet first, and no type absorbs
all others.  So any way to bring the types of a list together gives the same as a fold over the
list. -/
theorem mergeTypes_semilattice :
    (∀ t, mergeTypes t t = t) ∧
    (∀ s t, mergeTypes s t = mergeTypes t s) ∧
    (∀ r s t, mergeTypes (mergeTypes r s) t = mergeTypes r (mergeTypes s t)) ∧
    (∀ t, mergeTypes none t = none ∧ mergeTypes t none = none) ∧
    ∀ (t : Option Ty) (ts : List (Option Ty)) (g : Meeting),
      (∀ u, u ∈ g.types ↔ u ∈ t :: ts) → g.common = ts.foldl mergeTypes t := by
  refine ⟨mergeTypes_self, mergeTypes_comm, mergeTypes_assoc, ?_, ?_⟩
  · intro t
    exact ⟨top_sup_eq t, sup_top_eq t⟩
  · intro t ts g hmem
    exact Meeting.common_eq_foldl hmem

/-- Two arrays of characters, null and a string. -/
def arraysBesideString : Meeting :=
  .pair (.pair (.single (some (.array .char))) (.single (some Ty.null)))
    (.pair (.single (some Ty.string)) (.single (some (.array .char))))

theorem arraysBesideString_common :
    (∀ u, u ∈ arraysBesideString.types ↔ u ∈ [some Ty.null, some Ty.string, some (.array .char)]) ∧
      arraysBesideString.common =
        [some Ty.string, some (.array .char)].foldl mergeTypes (some Ty.null) ∧
      arraysBesideString.common = some (.object Ty.objectClass) := by
  have hmem : ∀ u, u ∈ arraysBesideString.types ↔
      u ∈ [some Ty.null, some Ty.string, some (.array .char)] := by
    intro u
    simp only [arraysBesideString, Meeting.types, List.cons_append, List.nil_append, List.mem_cons,
      List.not_mem_nil, or_false]
    grind
  exact ⟨hmem, mergeTypes_semilattice.2.2.2.2 _ _ _ hmem, by decide⟩

end Provenance
