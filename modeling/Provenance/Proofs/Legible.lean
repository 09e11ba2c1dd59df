/-
# Descriptors that can be read back

A class name ends at the first semicolon, and an array has elements.  So a type can be read back
from its descriptor, whatever text follows, if its class names are not empty and hold no semicolon
and nothing in it is an array of `void` (`Ty.scan_descriptorChars`).  No other type is ever read
(`Ty.legible_of_scan`), and what is read is written as the text it was read from.  Between
parentheses the descriptors of parameters follow each other without a sign between them, and are
told apart for the same reason.

So a text is read if it is the descriptor of something legible, and then as just that; every other
text is refused (`parse_exact`).
-/
import Provenance.Proofs.Descriptors

namespace Provenance

/-! ## 1. Types -/

namespace Ty

/-- A type that its descriptor tells. -/
def Legible : Ty → Prop
  | .object name => name ≠ "" ∧ ';' ∉ name.toList
  | .array elem => elem ≠ .void ∧ elem.Legible
  | _ => True

instance decidableLegible : (t : Ty) → Decidable t.Legible
  | .object name => inferInstanceAs (Decidable (name ≠ "" ∧ ';' ∉ name.toList))
  | .array elem =>
    have := decidableLegible elem
    inferInstanceAs (Decidable (elem ≠ .void ∧ elem.Legible))
  | .void | .boolean | .byte | .char | .short | .int | .long | .float | .double => isTrue trivial

theorem scan_primitive {c : Char} {t : Ty} (h : primitive? c = some t) (rest : List Char) :
    scan (c :: rest) = .ok (t, rest) := by
  have hclass : c ≠ 'L' := by
    rintro rfl
    cases h
  have harray : c ≠ '[' := by
    rintro rfl
    cases h
  simp only [scan, if_neg hclass, if_neg harray, h]

theorem scan_object {name : String} (hne : name ≠ "") (hname : ';' ∉ name.toList)
    (rest : List Char) :
    scan ('L' :: (name.toList ++ ';' :: rest)) = .ok (.object name, rest) := by
  have hall : ∀ c ∈ name.toList, decide (c ≠ ';') = true := fun c hc =>
    decide_eq_true fun heq => hname (heq ▸ hc)
  have htake : (name.toList ++ ';' :: rest).takeWhile (· ≠ ';') = name.toList := by
    rw [List.takeWhile_append_of_pos hall, List.takeWhile_cons_of_neg (by simp), List.append_nil]
  have hdrop : (name.toList ++ ';' :: rest).dropWhile (· ≠ ';') = ';' :: rest := by
    rw [List.dropWhile_append_of_pos hall, List.dropWhile_cons_of_neg (by simp)]
  have hsome : name.toList.isEmpty = false := by
    simpa [List.isEmpty_eq_false_iff] using hne
  unfold scan
  rw [if_pos rfl, htake, hdrop]
  simp only [hsome, Bool.false_eq_true, if_false, String.ofList_toList]

/-- **A legible type** is read back from its descriptor, whatever follows. -/
theorem scan_descriptorChars : ∀ {t : Ty}, t.Legible → ∀ rest : List Char,
    scan (t.descriptorChars ++ rest) = .ok (t, rest)
  | .object name, ⟨hne, hname⟩, rest => by
    simp only [descriptorChars, List.cons_append, List.append_assoc, List.nil_append]
    exact scan_object hne hname rest
  | .array elem, ⟨hvoid, helem⟩, rest => by
    have hscan := scan_descriptorChars helem rest
    simp only [descriptorChars, List.cons_append]
    unfold scan
    rw [if_neg (by decide), if_pos rfl, hscan]
    exact if_neg hvoid
  | .void, _, rest => scan_primitive (c := 'V') rfl rest
  | .boolean, _, rest => scan_primitive (c := 'Z') rfl rest
  | .byte, _, rest => scan_primitive (c := 'B') rfl rest
  | .char, _, rest => scan_primitive (c := 'C') rfl rest
  | .short, _, rest => scan_primitive (c := 'S') rfl rest
  | .int, _, rest => scan_primitive (c := 'I') rfl rest
  | .long, _, rest => scan_primitive (c := 'J') rfl rest
  | .float, _, rest => scan_primitive (c := 'F') rfl rest
  | .double, _, rest => scan_primitive (c := 'D') rfl rest

theorem legible_of_primitive {c : Char} {t : Ty} (h : primitive? c = some t) : t.Legible := by
  unfold primitive? at h
  split at h <;> cases h <;> trivial

/-- **Only legible types are read.** -/
theorem legible_of_scan : ∀ {cs rest : List Char} {t : Ty}, scan cs = .ok (t, rest) → t.Legible
  | [], _, _, h => by cases h
  | c :: cs, rest, t, h => by
    unfold scan at h
    split at h
    · split at h
      · cases h
      · split at h
        · cases h
        · rename_i hsome
          obtain ⟨rfl, -⟩ := Prod.mk.inj (Except.ok.inj h)
          refine ⟨fun hempty => hsome ?_, fun hmem => ?_⟩
          · rw [List.isEmpty_iff, ← String.toList_ofList (l := cs.takeWhile _), hempty]
            rfl
          · rw [String.toList_ofList] at hmem
            simpa using List.all_eq_true.mp List.all_takeWhile _ hmem
    · split at h
      · split at h
        · cases h
        · rename_i elem rest' hscan
          split at h
          · cases h
          · rename_i hvoid
            obtain ⟨rfl, -⟩ := Prod.mk.inj (Except.ok.inj h)
            exact ⟨hvoid, legible_of_scan hscan⟩
      · split at h
        · rename_i hprim
          obtain ⟨rfl, -⟩ := Prod.mk.inj (Except.ok.inj h)
          exact legible_of_primitive hprim
        · cases h

theorem ofChars_eq_ok_iff {cs : List Char} {t : Ty} :
    ofChars cs = .ok t ↔ t.Legible ∧ t.descriptorChars = cs := by
  constructor
  · intro h
    refine ⟨?_, (eq_of_ofChars h).symm⟩
    unfold ofChars at h
    split at h
    · cases h
    · rename_i hscan
      split at h
      · exact Except.ok.inj h ▸ legible_of_scan hscan
      · cases h
  · rintro ⟨hlegible, rfl⟩
    have hscan := scan_descriptorChars hlegible []
    rw [List.append_nil] at hscan
    unfold ofChars
    rw [hscan]
    rfl

theorem descriptorChars_ne_nil (t : Ty) : t.descriptorChars ≠ [] := by
  cases t <;> simp [descriptorChars]

/-- No descriptor begins with the parenthesis that ends the parameters. -/
theorem head_descriptorChars_ne (t : Ty) (rest rest' : List Char) :
    t.descriptorChars ++ rest ≠ ')' :: rest' := by
  cases t <;> simp [descriptorChars]

end Ty

/-! ## 2. Methods -/

namespace MethodDesc

/-- Types of parameters and a result that their descriptor tells. -/
structure Legible (d : MethodDesc) : Prop where
  params : ∀ t ∈ d.params, t ≠ .void ∧ t.Legible
  ret : d.ret.Legible

instance (d : MethodDesc) : Decidable d.Legible :=
  decidable_of_iff ((∀ t ∈ d.params, t ≠ .void ∧ t.Legible) ∧ d.ret.Legible)
    ⟨fun h => ⟨h.1, h.2⟩, fun h => ⟨h.params, h.ret⟩⟩

/-- **The parameters** are read one after the other, up to the parenthesis; `fuel` allows for each
of them and for the parenthesis. -/
theorem scanParams_descriptorChars : ∀ {ts : List Ty} {fuel : Nat}, ts.length < fuel →
    (∀ t ∈ ts, t ≠ .void ∧ t.Legible) → ∀ rest : List Char,
    scanParams fuel (ts.flatMap Ty.descriptorChars ++ ')' :: rest) = .ok (ts, rest)
  | [], fuel + 1, _, _, rest => rfl
  | t :: ts, fuel + 1, hfuel, hts, rest => by
    obtain ⟨⟨hvoid, hlegible⟩, hts⟩ := List.forall_mem_cons.mp hts
    have hrest := scanParams_descriptorChars (Nat.lt_of_succ_lt_succ hfuel) hts rest
    rw [List.flatMap_cons, List.append_assoc]
    unfold scanParams
    split
    · rename_i h
      exact absurd h (t.head_descriptorChars_ne _ _)
    · rw [Ty.scan_descriptorChars hlegible]
      simp only [if_neg hvoid, hrest]

theorem legible_of_scanParams : ∀ {fuel : Nat} {cs rest : List Char} {ts : List Ty},
    scanParams fuel cs = .ok (ts, rest) → ∀ t ∈ ts, t ≠ .void ∧ t.Legible
  | 0, _, _, _, h => by cases h
  | fuel + 1, cs, rest, ts, h => by
    unfold scanParams at h
    split at h
    · obtain ⟨rfl, -⟩ := Prod.mk.inj (Except.ok.inj h)
      simp
    · split at h
      · cases h
      · rename_i t rest₁ hscan
        split at h
        · cases h
        · rename_i hvoid
          split at h
          · cases h
          · rename_i ts' rest₂ hparams
            obtain ⟨rfl, -⟩ := Prod.mk.inj (Except.ok.inj h)
            exact List.forall_mem_cons.mpr
              ⟨⟨hvoid, Ty.legible_of_scan hscan⟩, legible_of_scanParams hparams⟩

theorem length_le_flatMap (ts : List Ty) : ts.length ≤ (ts.flatMap Ty.descriptorChars).length := by
  induction ts with
  | nil => exact Nat.le_refl 0
  | cons t ts ih =>
    have hpos : 0 < t.descriptorChars.length := List.length_pos_iff.mpr t.descriptorChars_ne_nil
    rw [List.flatMap_cons, List.length_append, List.length_cons]
    omega

/-- **A legible descriptor** is read back. -/
theorem parse_descriptor {d : MethodDesc} (h : d.Legible) : parse d.descriptor = .ok d := by
  obtain ⟨params, ret⟩ := d
  have hfuel : params.length <
      (params.flatMap Ty.descriptorChars ++ ')' :: ret.descriptorChars).length + 1 := by
    have hle := length_le_flatMap params
    rw [List.length_append]
    omega
  unfold parse descriptor descriptorChars
  rw [String.toList_ofList]
  simp only [List.cons_append, ofChars]
  rw [scanParams_descriptorChars hfuel h.params]
  simp only [Ty.ofChars_eq_ok_iff.mpr ⟨h.ret, rfl⟩]

/-- **Only legible descriptors are read.** -/
theorem legible_of_parse {text : String} {d : MethodDesc} (h : parse text = .ok d) : d.Legible := by
  unfold parse ofChars at h
  split at h
  · split at h
    · cases h
    · rename_i params rest hparams
      split at h
      · cases h
      · rename_i ret hret
        obtain rfl := Except.ok.inj h
        exact ⟨legible_of_scanParams hparams, (Ty.ofChars_eq_ok_iff.mp hret).1⟩
  · cases h

end MethodDesc

/-! ## 3. What is read -/

/-- **Reading accepts exactly the descriptors of what is legible**, and reads each as what it is the
descriptor of: types, and the descriptors of methods. -/
theorem parse_exact :
    (∀ (text : String) (t : Ty), Ty.parse text = .ok t ↔ t.Legible ∧ t.descriptor = text) ∧
    ∀ (text : String) (d : MethodDesc),
      MethodDesc.parse text = .ok d ↔ d.Legible ∧ d.descriptor = text := by
  constructor
  · intro text t
    unfold Ty.parse Ty.descriptor
    rw [Ty.ofChars_eq_ok_iff]
    refine and_congr_right fun _ => ⟨fun h => ?_, fun h => ?_⟩
    · rw [h, String.ofList_toList]
    · rw [← h, String.toList_ofList]
  · intro text d
    constructor
    · exact fun h => ⟨MethodDesc.legible_of_parse h, MethodDesc.descriptor_of_parse h⟩
    · rintro ⟨hlegible, rfl⟩
      exact MethodDesc.parse_descriptor hlegible

-- the name of a class may hold the signs that mean something outside of it
example : MethodDesc.parse "(L)[;[J)V" = .ok ⟨[.object ")[", .array .long], .void⟩ := rfl

end Provenance
