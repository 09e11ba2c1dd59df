/-
# A value is read back from its text

`Json.pretty` writes a value on several lines and `Json.parse?` reads it again.  A text comes back
with every character of it (`text?_escaped`), a whole number with all its digits
(`spelling?_digits`, `wholeDigits_toDigits`), and the blanks at the beginning of lines are passed
over.  So whatever holds no fraction and nothing unreadable is what its text says
(`Plain.parse?_pretty`), at any level and with anything behind it that may stand behind a value
(`Plain.readsBack`).
-/
import Mathlib.Data.List.DropRight
import Provenance.Json.Printer
import Provenance.Json.Reader

namespace Provenance.Json

/-! ## 1. Texts -/

theorem unit?_control : ∀ n < 32, unit? '0' '0' (Nat.digitChar (n / 16)) (Nat.digitChar (n % 16)) =
    some (.char (Char.ofNat n)) := by
  decide

/-- A backslash and a letter that stands for a character. -/
theorem pieces?_letter {e c : Char} (hletter : e ≠ 'u') (h : escaped? e = some c) (cs : List Char) :
    pieces? ('\\' :: e :: cs) = (pieces? cs).map fun (ps, rest) => (.char c :: ps, rest) := by
  rw [pieces?]
  · rw [h]
    cases pieces? cs <;> rfl
  · intro _ _ _ _ _ he
    exact absurd he hletter

theorem pieces?_cons {c : Char} (hquote : c ≠ '"') (hback : c ≠ '\\') (hcontrol : ¬ c.toNat < 32)
    (cs : List Char) :
    pieces? (c :: cs) = (pieces? cs).map fun (ps, rest) => (.char c :: ps, rest) := by
  rw [pieces?]
  · rw [if_neg (by simp [hback, hcontrol])]
    cases pieces? cs <;> rfl
  · exact hquote
  · exact fun _ _ _ _ _ h => absurd h hback
  · exact fun _ _ h => absurd h hback

/-- **One character** is read back from what is written for it. -/
theorem pieces?_escapeChar (c : Char) (cs : List Char) : pieces? (escapeChar c ++ cs) =
    (pieces? cs).map fun (ps, rest) => (.char c :: ps, rest) := by
  unfold escapeChar
  repeat' split
  -- the characters that have a letter of their own
  iterate 7
    · subst_vars
      exact pieces?_letter (by decide) rfl cs
  · rename_i hcontrol
    have hunit := unit?_control c.toNat hcontrol
    rw [Char.ofNat_toNat] at hunit
    simp only [List.cons_append, List.nil_append, pieces?, hunit]
    cases pieces? cs <;> rfl
  · rename_i hquote hback _ _ _ _ _ hcontrol
    exact pieces?_cons hquote hback hcontrol cs

theorem pieces?_escaped (rest : List Char) : ∀ cs : List Char,
    pieces? (cs.flatMap escapeChar ++ '"' :: rest) = some (cs.map .char, rest)
  | [] => by simp [pieces?]
  | c :: cs => by
    rw [List.flatMap_cons, List.append_assoc, pieces?_escapeChar, pieces?_escaped rest cs]
    rfl

theorem joinPieces?_chars : ∀ cs : List Char, joinPieces? (cs.map .char) = some cs
  | [] => rfl
  | c :: cs => by simp [joinPieces?, joinPieces?_chars cs]

/-- **A text** is read back from what stands between its quotes. -/
theorem text?_escaped (s : String) (rest : List Char) :
    text? (s.toList.flatMap escapeChar ++ '"' :: rest) = some (some s, rest) := by
  simp [text?, pieces?_escaped, joinPieces?_chars]

/-! ## 2. Numbers -/

/-- What may stand behind a value: nothing, or what goes on in a list or an object. -/
def Ends (rest : List Char) : Prop := ∀ c ∈ rest.head?, c = ',' ∨ c = '\n'

theorem spanDigits_append {ds rest : List Char} (hds : ∀ c ∈ ds, c.isDigit = true)
    (hrest : Ends rest) :
    spanDigits (ds ++ rest) = (ds, rest) := by
  have hhead : rest.takeWhile Char.isDigit = [] ∧ rest.dropWhile Char.isDigit = rest := by
    cases rest with
    | nil => exact ⟨rfl, rfl⟩
    | cons c rest =>
      have hc : c.isDigit = false := by
        rcases hrest c rfl with rfl | rfl <;> rfl
      exact ⟨List.takeWhile_cons_of_neg (by simp [hc]), List.dropWhile_cons_of_neg (by simp [hc])⟩
  unfold spanDigits
  rw [List.takeWhile_append_of_pos hds, List.dropWhile_append_of_pos hds, hhead.1, hhead.2,
    List.append_nil]

/-- A number above zero has no zero in front. -/
theorem head_toDigits_ne {n : Nat} (hn : 0 < n) (ds : List Char) :
    Nat.toDigits 10 n ≠ '0' :: ds := by
  induction n using Nat.strongRecOn generalizing ds with
  | ind n ih =>
    rw [Nat.toDigits_eq_if (by decide)]
    split
    · rename_i hlt
      have hdigit : ∀ n < 10, 0 < n → Nat.digitChar n ≠ '0' := by decide
      exact fun h => hdigit n hlt hn (List.cons.inj h).1
    · cases hq : Nat.toDigits 10 (n / 10) with
      | nil => exact absurd hq Nat.toDigits_ne_nil
      | cons d ds' =>
        intro h
        obtain ⟨rfl, -⟩ := List.cons.inj h
        exact ih (n / 10) (by omega) (by omega) ds' hq

theorem spelling?_digits (negative : Bool) (n : Nat) {rest : List Char} (hrest : Ends rest) :
    spelling? negative (Nat.toDigits 10 n ++ rest) =
      some (⟨negative, Nat.toDigits 10 n, none, none⟩, rest) := by
  have hdigits : ∀ c ∈ Nat.toDigits 10 n, c.isDigit = true := fun c hc =>
    Nat.isDigit_of_mem_toDigits (by decide) (by decide) hc
  have hzero : ∀ d ds, Nat.toDigits 10 n = d :: ds → (decide (d = '0') && !ds.isEmpty) = false := by
    intro d ds h
    rcases Nat.eq_zero_or_pos n with rfl | hn
    · obtain ⟨rfl, rfl⟩ := List.cons.inj (h.symm.trans (Nat.toDigits_zero 10))
      rfl
    · have hd : d ≠ '0' := fun hd => head_toDigits_ne hn ds (hd ▸ h)
      simp [hd]
  have hplain : fraction? rest = some (none, rest) ∧ power? rest = some (none, rest) := by
    cases rest with
    | nil => exact ⟨rfl, rfl⟩
    | cons c rest => rcases hrest c rfl with rfl | rfl <;> exact ⟨rfl, rfl⟩
  unfold spelling?
  rw [spanDigits_append hdigits hrest]
  cases h : Nat.toDigits 10 n with
  | nil => exact absurd h Nat.toDigits_ne_nil
  | cons d ds => simp only [hzero d ds h, hplain, Bool.false_eq_true, if_false]

theorem le_ofDigitChars : ∀ (ds : List Char) (n : Nat), n ≤ Nat.ofDigitChars 10 ds n
  | [], n => Nat.le_refl n
  | d :: ds, n => by
    have hrest := le_ofDigitChars ds (10 * n + (d.toNat - '0'.toNat))
    simp only [Nat.ofDigitChars, List.foldl_cons] at hrest ⊢
    omega

theorem wholeDigits_cons (n : Nat) (d : Char) (ds : List Char) :
    wholeDigits n (d :: ds) = match pushDigit? n d with
      | some m => wholeDigits m ds
      | none => (n, ds.length + 1) := by
  exact rfl

/-- Digits of a number that fits are all taken. -/
theorem wholeDigits_of_lt (ds : List Char) :
    ∀ n : Nat, Nat.ofDigitChars 10 ds n < Numeral.wordBound →
    wholeDigits n ds = (Nat.ofDigitChars 10 ds n, 0) := by
  induction ds with
  | nil => exact fun n _ => Eq.refl (n, 0)
  | cons d ds ih =>
    intro n h
    have hstep : Nat.ofDigitChars 10 (d :: ds) n =
        Nat.ofDigitChars 10 ds (n * 10 + (d.toNat - 48)) := by
      rw [Nat.mul_comm]
      rfl
    rw [hstep] at h ⊢
    have hfits : pushDigit? n d = some (n * 10 + (d.toNat - 48)) := by
      unfold pushDigit?
      simp only [if_pos (Nat.lt_of_le_of_lt (le_ofDigitChars ds _) h)]
    rw [wholeDigits_cons, hfits]
    exact ih _ h

theorem wholeDigits_toDigits {n : Nat} (h : n < Numeral.wordBound) :
    wholeDigits 0 (Nat.toDigits 10 n) = (n, 0) := by
  have hvalue := Nat.ofDigitChars_ten_toDigits (n := n)
  rw [wholeDigits_of_lt _ _ (hvalue.symm ▸ h), hvalue]

theorem value_natural {n : Nat} (h : n < Numeral.wordBound) :
    Spelling.value ⟨false, Nat.toDigits 10 n, none, none⟩ = .number (.natural n) := by
  simp [Spelling.value, wholeDigits_toDigits h]

theorem value_negative {n : Nat} (hpos : 0 < n) (h : n ≤ Numeral.longBound) :
    Spelling.value ⟨true, Nat.toDigits 10 n, none, none⟩ = .number (.negative n) := by
  have hword : n < Numeral.wordBound := Nat.lt_of_le_of_lt h (by decide)
  simp [Spelling.value, wholeDigits_toDigits hword, hpos, h]

/-! ## 3. Blanks -/

theorem skipSpace_cons {c : Char} (h : isSpace c = false) (cs : List Char) :
    skipSpace (c :: cs) = c :: cs :=
  List.dropWhile_cons_of_neg (by simp [h])

theorem skipSpace_blank {c : Char} (h : isSpace c = true) (cs : List Char) :
    skipSpace (c :: cs) = skipSpace cs :=
  List.dropWhile_cons_of_pos h

/-- A new line and what is left blank after it are passed over. -/
theorem skipSpace_newLine (level : Nat) (cs : List Char) :
    skipSpace (newLine level ++ cs) = skipSpace cs := by
  refine List.dropWhile_append_of_pos fun c hc => ?_
  rcases List.mem_cons.mp hc with rfl | hc
  · rfl
  · rw [List.eq_of_mem_replicate hc]
    rfl

theorem skipSpace_skipSpace (cs : List Char) : skipSpace (skipSpace cs) = skipSpace cs :=
  List.dropWhile_idempotent _ _

theorem value?_congr {cs cs' : List Char} (h : skipSpace cs = skipSpace cs') (fuel : Nat) :
    value? fuel cs = value? fuel cs' := by
  cases fuel with
  | zero => rfl
  | succ fuel => simp only [value?, h]

/-! ## 4. Values -/

/-- A value that can be read back: nothing in it is a fraction or unreadable, and its numbers are as
large as they may be. -/
inductive Plain : Json → Prop where
  | null : Plain .null
  | bool (b : Bool) : Plain (.bool b)
  | natural {n : Nat} (h : n < Numeral.wordBound) : Plain (.number (.natural n))
  | negative {n : Nat} (hpos : 0 < n) (h : n ≤ Numeral.longBound) : Plain (.number (.negative n))
  | text (s : String) : Plain (.text s)
  | list {items : List Json} (h : ∀ j ∈ items, Plain j) : Plain (.list items)
  | object {fields : List (String × Json)} (h : ∀ f ∈ fields, Plain f.2) : Plain (.object fields)

/-- A value is read back from its text at some level, whatever may stand behind it. -/
def ReadsBack (j : Json) : Prop :=
  ∀ (level fuel : Nat) (rest : List Char), (prettyChars level j).length < fuel → Ends rest →
    value? fuel (prettyChars level j ++ rest) = some (j, rest)

/-- One step of fuel is spent on the value itself. -/
theorem readsBack_of {j : Json} (h : ∀ (level fuel : Nat) (rest : List Char),
    (prettyChars level j).length ≤ fuel → Ends rest →
      value? (fuel + 1) (prettyChars level j ++ rest) = some (j, rest)) : ReadsBack j := by
  intro level fuel rest hfuel hrest
  cases fuel with
  | zero => exact absurd hfuel (Nat.not_lt_zero _)
  | succ fuel => exact h level fuel rest (Nat.le_of_lt_succ hfuel) hrest

theorem ends_newLine (level : Nat) (rest : List Char) : Ends (newLine level ++ rest) :=
  fun c hc => by
  simp only [newLine, List.cons_append, List.head?_cons, Option.mem_def, Option.some.injEq] at hc
  exact .inr hc.symm

theorem ends_comma (rest : List Char) : Ends (',' :: rest) := fun c hc => by
  simp only [List.head?_cons, Option.mem_def, Option.some.injEq] at hc
  exact .inl hc.symm

/-- What begins with a digit is a number. -/
theorem value?_digit {d : Char} (hd : d.isDigit = true) (fuel : Nat) (cs : List Char) :
    value? (fuel + 1) (d :: cs) =
      (spelling? false (d :: cs)).map fun (s, rest) => (s.value, rest) := by
  have hne : ∀ c : Char, c.isDigit = false → d ≠ c := fun c hc heq => by simp [← heq, hd] at hc
  have hspace : isSpace d = false := by
    simp [isSpace, hne _ (show ' '.isDigit = false from rfl),
      hne _ (show '\n'.isDigit = false from rfl), hne _ (show '\t'.isDigit = false from rfl),
      hne _ (show '\r'.isDigit = false from rfl)]
  rw [value?, skipSpace_cons hspace]
  split
  case h_1 heq => exact absurd heq (List.cons_ne_nil _ _)
  case h_8 heq =>
    obtain ⟨rfl, rfl⟩ := List.cons.inj heq
    rw [if_neg (hne _ (by decide))]
    cases spelling? false (d :: cs) <;> rfl
  all_goals
    rename_i heq
    exact absurd (List.cons.inj heq).1 (hne _ (by decide))

theorem readsBack_natural {n : Nat} (hn : n < Numeral.wordBound) :
    ReadsBack (.number (.natural n)) := by
  refine readsBack_of fun level fuel rest hfuel hrest => ?_
  simp only [prettyChars, Number.render]
  obtain ⟨d, ds, hdigits⟩ := List.exists_cons_of_ne_nil (Nat.toDigits_ne_nil (n := n) (b := 10))
  have hd : d.isDigit = true :=
    Nat.isDigit_of_mem_toDigits (by decide) (by decide) (hdigits ▸ List.mem_cons_self)
  have hspelling := spelling?_digits false n hrest
  rw [hdigits, List.cons_append] at hspelling ⊢
  rw [value?_digit hd, hspelling, ← hdigits]
  simp only [Option.map_some, value_natural hn]

theorem readsBack_negative {n : Nat} (hpos : 0 < n) (hn : n ≤ Numeral.longBound) :
    ReadsBack (.number (.negative n)) := by
  refine readsBack_of fun level fuel rest hfuel hrest => ?_
  have hspelling := spelling?_digits true n hrest
  simp only [prettyChars, Number.render, List.cons_append]
  rw [value?, skipSpace_cons rfl]
  simp only [hspelling, value_negative hpos hn]

theorem readsBack_text (s : String) : ReadsBack (.text s) := by
  refine readsBack_of fun level fuel rest hfuel hrest => ?_
  simp only [prettyChars, quoted, List.cons_append, List.append_assoc, List.nil_append]
  rw [value?, skipSpace_cons rfl]
  simp only [text?_escaped]

/-- No value begins with a closing bracket. -/
theorem skipSpace_ne_bracket {fuel : Nat} {cs : List Char} {x : Json × List Char}
    (h : value? fuel cs = some x) (rest : List Char) : skipSpace cs ≠ ']' :: rest := by
  intro hcs
  cases fuel with
  | zero => cases h
  | succ fuel =>
    rw [value?, hcs] at h
    cases h

/-! ## 5. Lists and objects -/

theorem ends_items (level close : Nat) (rest : List Char) (js : List Json) :
    Ends (prettyItems level js ++ (newLine close ++ ']' :: rest)) := by
  cases js with
  | nil => exact ends_newLine close _
  | cons j js =>
    simp only [prettyItems, List.cons_append, List.append_assoc]
    exact ends_comma _

/-- **The items of a list** are read one after the other. -/
theorem items?_pretty (level close : Nat) (rest : List Char) (js : List Json) :
    ∀ (j : Json) (fuel : Nat) (cs : List Char), (∀ k ∈ j :: js, ReadsBack k) →
      (prettyChars level j).length + (prettyItems level js).length + 1 < fuel →
      skipSpace cs = skipSpace (prettyChars level j ++ (prettyItems level js ++
        (newLine close ++ ']' :: rest))) →
      items? fuel cs = some (j :: js, rest) := by
  induction js with
  | nil =>
    intro j fuel cs hall hfuel hcs
    obtain ⟨fuel, rfl⟩ := Nat.exists_eq_add_of_lt (Nat.zero_lt_of_lt hfuel)
    have hj := hall j (by simp) level fuel _ (by omega) (ends_newLine close (']' :: rest))
    rw [Nat.zero_add, items?, value?_congr hcs]
    simp only [prettyItems, List.nil_append, hj, skipSpace_newLine, skipSpace_cons (c := ']') rfl]
  | cons j' js ih =>
    intro j fuel cs hall hfuel hcs
    obtain ⟨fuel, rfl⟩ := Nat.exists_eq_add_of_lt (Nat.zero_lt_of_lt hfuel)
    simp only [prettyItems, List.cons_append, List.append_assoc, List.length_cons,
      List.length_append] at hfuel hcs
    have hj := hall j (by simp) level fuel _ (by omega) (ends_comma (newLine level ++
      (prettyChars level j' ++ (prettyItems level js ++ (newLine close ++ ']' :: rest)))))
    have hrest := ih j' fuel _ (fun k hk => hall k (List.mem_cons_of_mem j hk)) (by omega)
      (skipSpace_newLine level _)
    rw [Nat.zero_add, items?, value?_congr hcs, hj]
    simp only [skipSpace_cons (c := ',') rfl, hrest]

theorem value?_bracket {fuel : Nat} {cs : List Char} {items : List Json} {rest : List Char}
    (h : items? fuel (skipSpace cs) = some (items, rest)) (hne : ∀ r, skipSpace cs ≠ ']' :: r) :
    value? (fuel + 1) ('[' :: cs) = some (.list items, rest) := by
  rw [value?, skipSpace_cons rfl]
  -- the list is not the empty one
  simp only [h]

theorem readsBack_list {items : List Json} (hall : ∀ j ∈ items, ReadsBack j) :
    ReadsBack (.list items) := by
  refine readsBack_of fun level fuel rest hfuel hrest => ?_
  cases items with
  | nil =>
    simp only [prettyChars, List.cons_append, List.nil_append]
    rw [value?, skipSpace_cons rfl]
    simp only [skipSpace_cons (c := ']') rfl]
  | cons j js =>
    simp only [prettyChars, List.cons_append, List.append_assoc, List.nil_append, List.length_cons,
      List.length_append] at hfuel ⊢
    have hj := hall j (by simp) (level + 1) fuel _ (by omega) (ends_items (level + 1) level rest js)
    refine value?_bracket (items?_pretty (level + 1) level rest js j fuel _ hall (by omega) ?_) ?_
    · rw [skipSpace_skipSpace, skipSpace_newLine]
    · rw [skipSpace_newLine]
      exact skipSpace_ne_bracket hj

theorem ends_fields (level close : Nat) (rest : List Char) (fs : List (String × Json)) :
    Ends (prettyFields level fs ++ (newLine close ++ closeBrace :: rest)) := by
  cases fs with
  | nil => exact ends_newLine close _
  | cons f fs =>
    simp only [prettyFields, List.cons_append, List.append_assoc]
    exact ends_comma _

/-- **The fields of an object** are read one after the other. -/
theorem members?_pretty (level close : Nat) (rest : List Char) (fs : List (String × Json)) :
    ∀ (f : String × Json) (fuel : Nat) (cs : List Char), (∀ e ∈ f :: fs, ReadsBack e.2) →
      (prettyChars level f.2).length + (prettyFields level fs).length + 1 < fuel →
      skipSpace cs = quoted f.1 ++ ':' :: ' ' :: (prettyChars level f.2 ++ (prettyFields level fs ++
        (newLine close ++ closeBrace :: rest))) →
      members? fuel cs = some ((f :: fs).map fun e => (some e.1, e.2), rest) := by
  induction fs with
  | nil =>
    intro f fuel cs hall hfuel hcs
    obtain ⟨fuel, rfl⟩ := Nat.exists_eq_add_of_lt (Nat.zero_lt_of_lt hfuel)
    have hj := hall f (by simp) level fuel _ (by omega) (ends_newLine close (closeBrace :: rest))
    simp only [quoted, prettyFields, List.nil_append, List.cons_append, List.append_assoc] at hcs
    rw [Nat.zero_add, members?, hcs]
    simp only [text?_escaped, skipSpace_cons (c := ':') rfl,
      value?_congr (skipSpace_blank (c := ' ') rfl _),
      hj, skipSpace_newLine, skipSpace_cons (c := closeBrace) rfl]
    rfl
  | cons f' fs ih =>
    intro f fuel cs hall hfuel hcs
    obtain ⟨fuel, rfl⟩ := Nat.exists_eq_add_of_lt (Nat.zero_lt_of_lt hfuel)
    simp only [quoted, prettyFields, List.cons_append, List.append_assoc, List.nil_append,
      List.length_cons, List.length_append] at hfuel hcs
    have hj := hall f (by simp) level fuel _ (by omega)
      (ends_fields level close rest (f' :: fs))
    simp only [quoted, prettyFields, List.cons_append, List.append_assoc, List.nil_append] at hj
    have hrest := ih f' fuel
      (newLine level ++ (quoted f'.1 ++ ':' :: ' ' :: (prettyChars level f'.2 ++
        (prettyFields level fs ++ (newLine close ++ closeBrace :: rest)))))
      (fun e he => hall e (List.mem_cons_of_mem f he)) (by omega) (skipSpace_newLine level _)
    simp only [quoted, List.cons_append, List.append_assoc, List.nil_append] at hrest
    rw [Nat.zero_add, members?, hcs]
    simp only [text?_escaped, skipSpace_cons (c := ':') rfl,
      value?_congr (skipSpace_blank (c := ' ') rfl _),
      hj, skipSpace_cons (c := ',') rfl, hrest, List.map_cons]

/-- Keys that are all texts are kept. -/
theorem ofMembers_some (fields : List (String × Json)) :
    ofMembers (fields.map fun f => (some f.1, f.2)) = .object fields := by
  have hall : ∀ g : Option String × Json → Option (String × Json),
      (∀ f : String × Json, g (some f.1, f.2) = some f) →
      (fields.map fun f => (some f.1, f.2)).mapM g = some fields := by
    intro g hg
    induction fields with
    | nil => rfl
    | cons f fields ih => simp [List.mapM_cons, ih, hg]
  unfold ofMembers
  rw [hall _ fun _ => rfl]

theorem value?_brace {fuel : Nat} {cs rest r : List Char} {fields : List (String × Json)}
    (hcs : skipSpace cs = '"' :: r)
    (h : members? fuel cs = some (fields.map fun f => (some f.1, f.2), rest)) :
    value? (fuel + 1) (openBrace :: cs) = some (.object fields, rest) := by
  rw [value?, skipSpace_cons rfl]
  simp [openBrace, hcs, h, ofMembers_some]

theorem readsBack_object {fields : List (String × Json)} (hall : ∀ f ∈ fields, ReadsBack f.2) :
    ReadsBack (.object fields) := by
  refine readsBack_of fun level fuel rest hfuel hrest => ?_
  cases fields with
  | nil => rfl
  | cons f fs =>
    simp only [prettyChars, List.cons_append, List.append_assoc, List.nil_append, List.length_cons,
      List.length_append] at hfuel ⊢
    have hskip := skipSpace_newLine (level + 1) (quoted f.1 ++ ':' :: ' ' ::
      (prettyChars (level + 1) f.2 ++ (prettyFields (level + 1) fs ++
        (newLine level ++ closeBrace :: rest))))
    exact value?_brace (hskip.trans (skipSpace_cons rfl _))
      (members?_pretty (level + 1) level rest fs f fuel _ hall (by omega) hskip)

/-! ## 6. Plain values -/

/-- **What is plain is read back** from its text at any level. -/
theorem Plain.readsBack {j : Json} (h : j.Plain) : ReadsBack j := by
  induction h with
  | null => exact readsBack_of fun _ _ _ _ _ => rfl
  | bool b => exact readsBack_of fun _ _ _ _ _ => by cases b <;> rfl
  | natural h => exact readsBack_natural h
  | negative hpos h => exact readsBack_negative hpos h
  | text s => exact readsBack_text s
  | list _ ih => exact readsBack_list ih
  | object _ ih => exact readsBack_object ih

/-- **A plain value** is what its text on several lines says. -/
theorem Plain.parse?_pretty {j : Json} (h : j.Plain) : parse? j.pretty = some j := by
  have hread :=
    h.readsBack 0 ((prettyChars 0 j).length + 1) [] (Nat.lt_succ_self _) (by simp [Ends])
  rw [List.append_nil] at hread
  unfold parse? pretty parseChars?
  rw [String.toList_ofList, hread]
  rfl

end Provenance.Json
