/-
# Which classes a list of rules includes

A list of rules is cut at commas, and what is left of a piece without its blanks is a rule, unless
nothing is left (`ClassFilter.RulesOf`).  Cutting at a comma more does not change the pieces before
and after it, so two lists with a comma between them are one list of the rules of both.

* A list is refused exactly if one of its rules has no sign and is not the word for the recommended
  rules, or has a star before its end (`Faulty`); the first such rule is named.
* Any other list decides by the first rule that speaks of the outermost class (`Decides`), where the
  word for the recommended rules stands for these.

What speaks of a class is said of the texts of the rules and not of the patterns that are read from
them; `pattern?_speaks` says that the two agree.
-/
import Mathlib.Data.List.Forall2
import Mathlib.Data.List.Infix
import Mathlib.Data.List.TakeWhile
import Provenance.Weave.Filter

namespace Provenance

/-! ## 1. Cutting and trimming -/

namespace Text

/-- The pieces of a text between the separators. -/
inductive Pieces (sep : Char) : List Char → List (List Char) → Prop where
  | last {piece : List Char} (h : sep ∉ piece) : Pieces sep piece [piece]
  | more {piece rest : List Char} {pieces : List (List Char)} (h : sep ∉ piece)
      (hrest : Pieces sep rest pieces) : Pieces sep (piece ++ sep :: rest) (piece :: pieces)

/-- What is left of a text without the blanks at its two ends. -/
structure Trimmed (cs left : List Char) : Prop where
  around : ∃ before behind, cs = before ++ left ++ behind ∧
    (∀ c ∈ before, isBlank c = true) ∧ ∀ c ∈ behind, isBlank c = true
  first : ∀ c, left.head? = some c → isBlank c = false
  last : ∀ c, left.getLast? = some c → isBlank c = false

variable {sep : Char}

/-- **A separator between two texts** separates their pieces. -/
theorem splitAt_append (a b : List Char) :
    splitAt sep (a ++ sep :: b) = splitAt sep a ++ splitAt sep b := by
  induction a with
  | nil =>
    have hfirst : splitAt sep (sep :: b) = [] :: splitAt sep b := by
      rw [splitAt]
      cases hb : splitAt sep b with
      | nil => exact absurd hb (splitAt_ne_nil sep b)
      | cons piece pieces => exact if_pos rfl
    rw [List.nil_append, hfirst]
    rfl
  | cons c cs ih =>
    rw [List.cons_append, splitAt, splitAt, ih]
    cases hcs : splitAt sep cs with
    | nil => exact absurd hcs (splitAt_ne_nil sep cs)
    | cons piece pieces =>
      simp only [List.cons_append]
      split <;> rfl

theorem splitAt_of_not_mem {piece : List Char} (h : sep ∉ piece) : splitAt sep piece = [piece] := by
  induction piece with
  | nil => rfl
  | cons c cs ih =>
    have hc : c ≠ sep := fun heq => h (heq ▸ List.mem_cons_self)
    rw [splitAt, ih fun hmem => h (List.mem_cons_of_mem c hmem)]
    exact if_neg hc

theorem pieces_splitAt (cs : List Char) : Pieces sep cs (splitAt sep cs) := by
  induction cs with
  | nil => exact .last List.not_mem_nil
  | cons c cs ih =>
    rw [splitAt]
    cases hcs : splitAt sep cs with
    | nil => exact absurd hcs (splitAt_ne_nil sep cs)
    | cons piece pieces =>
      rw [hcs] at ih
      simp only
      split
      · rename_i hc
        subst hc
        exact .more List.not_mem_nil ih
      · rename_i hc
        have hmem : ∀ {p : List Char}, sep ∉ p → sep ∉ c :: p := fun hp hm =>
          (List.mem_cons.mp hm).elim (fun heq => hc heq.symm) hp
        cases ih with
        | last h => exact .last (hmem h)
        | @more _ rest _ h hrest =>
          have hmore : Pieces sep ((c :: piece) ++ sep :: rest) _ := .more (hmem h) hrest
          exact hmore

theorem pieces_iff {cs : List Char} {pieces : List (List Char)} :
    Pieces sep cs pieces ↔ pieces = splitAt sep cs := by
  refine ⟨fun h => ?_, fun h => h ▸ pieces_splitAt cs⟩
  induction h with
  | last h => exact (splitAt_of_not_mem h).symm
  | more h _ ih => rw [splitAt_append, splitAt_of_not_mem h, ih]; rfl

theorem dropWhile_blanks {before cs : List Char} (h : ∀ c ∈ before, isBlank c = true)
    (hcs : ∀ c, cs.head? = some c → isBlank c = false) : (before ++ cs).dropWhile isBlank = cs := by
  rw [List.dropWhile_append_of_pos h]
  cases cs with
  | nil => rfl
  | cons c cs => rw [List.dropWhile_cons_of_neg (by simp [hcs c rfl])]

theorem head_dropWhile (cs : List Char) (c : Char) (h : (cs.dropWhile isBlank).head? = some c) :
    isBlank c = false := by
  simpa [h] using List.head?_dropWhile_not isBlank cs

theorem trimmed_trim (cs : List Char) : Trimmed cs (trim cs) := by
  have hsplit := List.takeWhile_append_dropWhile (p := isBlank) (l := cs)
  generalize hd : cs.dropWhile isBlank = d at hsplit
  have hback := List.takeWhile_append_dropWhile (p := isBlank) (l := d.reverse)
  have htrim : trim cs = (d.reverse.dropWhile isBlank).reverse := by rw [trim, hd]
  have hd' : d = trim cs ++ (d.reverse.takeWhile isBlank).reverse := by
    rw [htrim, ← List.reverse_append, hback, List.reverse_reverse]
  refine ⟨⟨cs.takeWhile isBlank, (d.reverse.takeWhile isBlank).reverse, ?_, ?_, ?_⟩, fun c hc => ?_,
    fun c hc => ?_⟩
  · rw [List.append_assoc, ← hd', hsplit]
  · exact List.all_eq_true.mp List.all_takeWhile
  · exact fun c hc => List.all_eq_true.mp List.all_takeWhile c (List.mem_reverse.mp hc)
  · -- what is left begins where the text without the blanks before it does
    refine head_dropWhile cs c ?_
    rw [hd, hd', List.head?_append, hc]
    rfl
  · refine head_dropWhile d.reverse c ?_
    rwa [htrim, List.getLast?_reverse] at hc

theorem trimmed_iff {cs left : List Char} : Trimmed cs left ↔ left = trim cs := by
  refine ⟨fun ⟨⟨before, behind, hcs, hbefore, hbehind⟩, hfirst, hlast⟩ => ?_,
    fun h => h ▸ trimmed_trim cs⟩
  cases left with
  | nil =>
    have hall : ∀ c ∈ cs, isBlank c = true := by
      intro c hc
      rw [hcs, List.append_nil] at hc
      exact (List.mem_append.mp hc).elim (hbefore c) (hbehind c)
    rw [trim, List.dropWhile_eq_nil_iff.mpr hall]
    rfl
  | cons first rest =>
    rw [trim, hcs, List.append_assoc, dropWhile_blanks hbefore (by simpa using hfirst first rfl),
      List.reverse_append, dropWhile_blanks (fun c hc => hbehind c (List.mem_reverse.mp hc)),
      List.reverse_reverse]
    intro c hc
    rw [List.head?_reverse] at hc
    exact hlast c hc

end Text

namespace ClassFilter

/-- The rules of a list, as its text holds them: what stands between commas, without blanks around
it, if there is anything. -/
def RulesOf (text : List Char) (rules : List (List Char)) : Prop :=
  ∃ pieces trimmed, Text.Pieces ',' text pieces ∧ List.Forall₂ Text.Trimmed pieces trimmed ∧
    rules = trimmed.filter fun w => !w.isEmpty

theorem rulesOf_iff {text : List Char} {rules : List (List Char)} :
    RulesOf text rules ↔ rules = words text := by
  have htrim : ∀ pieces trimmed : List (List Char),
      List.Forall₂ Text.Trimmed pieces trimmed ↔ trimmed = pieces.map Text.trim := by
    intro pieces trimmed
    constructor
    · intro h
      induction h with
      | nil => rfl
      | cons hhead _ ih => rw [List.map_cons, ← ih, Text.trimmed_iff.mp hhead]
    · rintro rfl
      exact List.forall₂_map_right_iff.mpr (List.forall₂_same.mpr fun p _ => Text.trimmed_trim p)
  unfold RulesOf words
  simp only [Text.pieces_iff, htrim]
  constructor
  · rintro ⟨_, _, rfl, rfl, rfl⟩
    rfl
  · rintro rfl
    exact ⟨_, _, rfl, rfl, rfl⟩

/-- **The rules of two lists** with a comma between them. -/
theorem words_append (a b : List Char) : words (a ++ ',' :: b) = words a ++ words b := by
  unfold words
  rw [Text.splitAt_append, List.map_append, List.filter_append]

/-! ## 2. What rules say -/

/-- What is wrong with a rule: it has no sign and is not the word for the recommended rules, or
there is a star before its end. -/
def Faulty (rule : List Char) : Prop :=
  (rule ≠ recommendedWord ∧ rule.head? ≠ some '+' ∧ rule.head? ≠ some '-') ∨ '*' ∈ rule.dropLast

instance (rule : List Char) : Decidable (Faulty rule) :=
  inferInstanceAs (Decidable (_ ∨ _))

/-- Of which classes a rule speaks that stands there without its sign: of the one it names, or of
all that begin as it does up to its star. -/
inductive Speaks : List Char → List Char → Prop where
  | named {body : List Char} (h : body.getLast? ≠ some '*') : Speaks body (slashed body)
  | beginning (start rest : List Char) : Speaks (start ++ ['*']) (slashed start ++ rest)

/-- What a list of rules says of a class: the first one that speaks of it decides, and a class of
which none speaks is excluded. -/
inductive Decides (cls : List Char) : List (List Char) → Bool → Prop where
  | unmentioned : Decides cls [] false
  | included {body : List Char} {rules : List (List Char)} (h : Speaks body cls) :
      Decides cls (('+' :: body) :: rules) true
  | excluded {body : List Char} {rules : List (List Char)} (h : Speaks body cls) :
      Decides cls (('-' :: body) :: rules) false
  | passed {sign : Char} {body : List Char} {rules : List (List Char)} {b : Bool}
      (h : ¬ Speaks body cls) (hrest : Decides cls rules b) :
        Decides cls ((sign :: body) :: rules) b

/-- The recommended rules as they would be written. -/
def recommendedText : List Char := "-flowtrack.*,-java.lang.invoke.*".toList

/-- A rule, or the rules that the word for them stands for. -/
def expanded (rule : List Char) : List (List Char) :=
  if rule = recommendedWord then words recommendedText else [rule]

/-- Names that differ in nothing but dots and slashes in each other's place. -/
def SameName (name other : List Char) : Prop :=
  List.Forall₂ (fun c d => c = d ∨ (c = '.' ∧ d = '/') ∨ (c = '/' ∧ d = '.')) name other

/-! ## 3. One rule -/

theorem star_mem_slashed {cs : List Char} : '*' ∈ slashed cs ↔ '*' ∈ cs := by
  unfold slashed Text.replaceChar
  rw [List.mem_map]
  constructor
  · rintro ⟨c, hc, hstar⟩
    split at hstar
    · exact absurd hstar (by decide)
    · exact hstar ▸ hc
  · exact fun h => ⟨'*', h, by decide⟩

theorem slashed_append (a b : List Char) : slashed (a ++ b) = slashed a ++ slashed b :=
  List.map_append

theorem slashed_dropLast (cs : List Char) : (slashed cs).dropLast = slashed cs.dropLast :=
  List.map_dropLast.symm

theorem getLast?_slashed {cs : List Char} :
    (slashed cs).getLast? = some '*' ↔ cs.getLast? = some '*' := by
  unfold slashed Text.replaceChar
  rw [List.getLast?_map, Option.map_eq_some_iff]
  constructor
  · rintro ⟨c, hc, hstar⟩
    split at hstar
    · exact absurd hstar (by decide)
    · exact hstar ▸ hc
  · exact fun h => ⟨'*', h, by decide⟩

/-- A text that ends in a star. -/
theorem eq_of_getLast? {body : List Char} (h : body.getLast? = some '*') :
    body = body.dropLast ++ ['*'] :=
  (List.dropLast_append_getLast? '*' h).symm

/-- **A star before the end** is what a rule with a sign may not have. -/
theorem pattern?_eq_none_iff {body : List Char} :
    pattern? (slashed body) = none ↔ '*' ∈ body.dropLast := by
  unfold pattern?
  simp only [getLast?_slashed, slashed_dropLast, List.contains_iff_mem, star_mem_slashed]
  split
  · simp
  · rename_i hlast
    have hmem : '*' ∈ body ↔ '*' ∈ body.dropLast := by
      refine ⟨fun h => ?_, List.mem_of_mem_dropLast⟩
      cases hl : body.getLast? with
      | none =>
        rw [List.getLast?_eq_none_iff.mp hl] at h
        exact absurd h List.not_mem_nil
      | some c =>
        rw [← List.dropLast_append_getLast? c hl] at h
        rcases List.mem_append.mp h with h | h
        · exact h
        · exact absurd (List.mem_singleton.mp h ▸ hl) hlast
    simp [hmem]

/-- **The pattern that is read from a rule** fits the classes of which the rule speaks. -/
theorem pattern?_speaks {body : List Char} {p : NamePattern} (h : pattern? (slashed body) = some p)
    (cls : List Char) : p.fits cls = true ↔ Speaks body cls := by
  unfold pattern? at h
  simp only [getLast?_slashed, slashed_dropLast, List.contains_iff_mem, star_mem_slashed] at h
  split at h
  · rename_i hlast
    split at h
    · exact absurd h (by simp)
    · obtain rfl := Option.some.inj h
      have hbody := eq_of_getLast? hlast
      simp only [NamePattern.fits, List.isPrefixOf_iff_prefix]
      constructor
      · rintro ⟨rest, rfl⟩
        rw [hbody]
        simpa using Speaks.beginning body.dropLast rest
      · intro hspeaks
        cases hspeaks with
        | named hno => exact absurd hlast hno
        | beginning start rest => simp
  · rename_i hlast
    split at h
    · exact absurd h (by simp)
    · obtain rfl := Option.some.inj h
      simp only [NamePattern.fits, decide_eq_true_eq]
      constructor
      · rintro rfl
        exact .named hlast
      · intro hspeaks
        cases hspeaks with
        | named _ => rfl
        | beginning start rest => simp at hlast

/-! ## 4. Lists of rules -/

/-- What a list of patterns says of a class. -/
def decision (rules : List FilterRule) (cls : List Char) : Bool :=
  match rules.find? fun r => r.pattern.fits cls with
  | some r => r.included
  | none => false

theorem includes_eq (f : ClassFilter) (name : String) :
    f.includes name = decision f.rules (outermost name.toList) := rfl

/-- One more rule in front. -/
theorem Decides.signed {sign : Char} (hsign : sign = '+' ∨ sign = '-') {body : List Char}
    {p : NamePattern} (hp : pattern? (slashed body) = some p) {cls : List Char}
    {rules : List (List Char)} {more : List FilterRule}
    (h : Decides cls rules (decision more cls)) :
    Decides cls ((sign :: body) :: rules) (decision (⟨sign == '+', p⟩ :: more) cls) := by
  have hfits := pattern?_speaks hp cls
  unfold decision
  rw [List.find?_cons]
  simp only
  cases hfit : p.fits cls with
  | true =>
    have hspeaks := hfits.mp hfit
    rcases hsign with rfl | rfl
    · exact .included hspeaks
    · exact .excluded hspeaks
  | false => exact .passed (fun hspeaks => by simp [hfits.mpr hspeaks] at hfit) h

/-- How one rule is read: as a pattern with its sign, or as the recommended ones. -/
theorem parseRule_cases (rule : List Char) :
    (rule = recommendedWord ∧ parseRule rule = .ok recommended) ∨
    (∃ sign body, (sign = '+' ∨ sign = '-') ∧ rule = sign :: body ∧ rule ≠ recommendedWord ∧
      parseRule rule = match pattern? (slashed body) with
        | some p => .ok [⟨sign == '+', p⟩]
        | none => .error .innerStar) ∨
    (rule ≠ recommendedWord ∧ rule.head? ≠ some '+' ∧ rule.head? ≠ some '-' ∧
      parseRule rule = .error .missingSign) := by
  unfold parseRule
  split
  · exact .inl ⟨‹_›, rfl⟩
  · rename_i hne
    split
    · exact .inr (.inl ⟨'+', _, .inl rfl, rfl, hne, rfl⟩)
    · exact .inr (.inl ⟨'-', _, .inr rfl, rfl, hne, rfl⟩)
    · rename_i hplus hminus
      refine .inr (.inr ⟨hne, fun h => ?_, fun h => ?_, rfl⟩)
      · obtain ⟨body, rfl⟩ := List.head?_eq_some_iff.mp h
        exact hplus body rfl
      · obtain ⟨body, rfl⟩ := List.head?_eq_some_iff.mp h
        exact hminus body rfl

/-- The fault of a rule that has one. -/
def faultOf (rule : List Char) : RuleFault :=
  if rule.head? = some '+' ∨ rule.head? = some '-' then .innerStar else .missingSign

theorem star_before_end {sign : Char} (hsign : sign = '+' ∨ sign = '-') (body : List Char) :
    '*' ∈ (sign :: body).dropLast ↔ '*' ∈ body.dropLast := by
  cases body with
  | nil => simp
  | cons c body => rcases hsign with rfl | rfl <;> simp

/-- **A rule that is faulty** is refused for its fault. -/
theorem parseRule_of_faulty {rule : List Char} (h : Faulty rule) :
    parseRule rule = .error (faultOf rule) := by
  rcases parseRule_cases rule with ⟨rfl, -⟩ | ⟨sign, body, hsign, rfl, hne, hparse⟩ |
    ⟨-, hplus, hminus, hparse⟩
  · exact absurd h (by decide)
  · have hstar : '*' ∈ body.dropLast := by
      refine (star_before_end hsign body).mp (h.resolve_left fun hno => ?_)
      rcases hsign with rfl | rfl
      · exact hno.2.1 rfl
      · exact hno.2.2 rfl
    rw [hparse, pattern?_eq_none_iff.mpr hstar, faultOf, if_pos (by simpa using hsign)]
  · rw [hparse, faultOf, if_neg (not_or.mpr ⟨hplus, hminus⟩)]

/-- **Any other rule** is read, and says what it says with its sign. -/
theorem parseRule_of_not_faulty {rule : List Char} (h : ¬ Faulty rule) :
    ∃ read, parseRule rule = .ok read ∧
      ∀ (cls : List Char) (rules : List (List Char)) (more : List FilterRule),
        Decides cls rules (decision more cls) →
        Decides cls (expanded rule ++ rules) (decision (read ++ more) cls) := by
  rcases parseRule_cases rule with ⟨rfl, hparse⟩ | ⟨sign, body, hsign, rfl, hne, hparse⟩ |
    ⟨hne, hplus, hminus, -⟩
  · refine ⟨_, hparse, fun cls rules more hmore => ?_⟩
    have hinvoke := hmore.signed (.inr rfl) (show pattern? (slashed "java.lang.invoke.*".toList) =
      some (.leading "java/lang/invoke/".toList) by decide)
    exact hinvoke.signed (.inr rfl) (show pattern? (slashed "flowtrack.*".toList) =
      some (.leading "flowtrack/".toList) by decide)
  · cases hp : pattern? (slashed body) with
    | none =>
      have hstar := (star_before_end hsign body).mpr (pattern?_eq_none_iff.mp hp)
      exact absurd (.inr hstar) h
    | some p =>
      rw [hp] at hparse
      refine ⟨_, hparse, fun cls rules more hmore => ?_⟩
      rw [expanded, if_neg hne]
      exact hmore.signed hsign hp
  · exact absurd (.inl ⟨hne, hplus, hminus⟩) h

/-- **A list with a faulty rule** is refused for the first one. -/
theorem parseWords_of_find {rules : List (List Char)} {rule : List Char}
    (h : rules.find? (fun w => Faulty w) = some rule) :
    parseWords rules = .error (rule, faultOf rule) := by
  induction rules with
  | nil => cases h
  | cons first rest ih =>
    rw [List.find?_cons] at h
    unfold parseWords
    by_cases hfirst : Faulty first
    · simp only [hfirst, decide_true, Option.some.injEq] at h
      subst h
      rw [parseRule_of_faulty hfirst]
    · simp only [hfirst, decide_false] at h
      obtain ⟨read, hread, -⟩ := parseRule_of_not_faulty hfirst
      rw [hread, ih h]

/-- **A list without** is read, and decides as its rules do. -/
theorem parseWords_of_sound {rules : List (List Char)} (h : ∀ w ∈ rules, ¬ Faulty w) :
    ∃ read, parseWords rules = .ok read ∧
      ∀ cls, Decides cls (rules.flatMap expanded) (decision read cls) := by
  induction rules with
  | nil => exact ⟨[], rfl, fun _ => .unmentioned⟩
  | cons first rest ih =>
    obtain ⟨hfirst, hrest⟩ := List.forall_mem_cons.mp h
    obtain ⟨read, hread, hsays⟩ := parseRule_of_not_faulty hfirst
    obtain ⟨more, hmore, hdecides⟩ := ih hrest
    refine ⟨read ++ more, ?_, fun cls => hsays cls _ more (hdecides cls)⟩
    unfold parseWords
    rw [hread, hmore]

theorem parse_of_find {text : String} {rule : List Char}
    (h : (words text.toList).find? (fun w => Faulty w) = some rule) :
    parse text = .error (.invalidFilterRule (String.ofList rule) text (faultOf rule)) := by
  unfold parse
  rw [parseWords_of_find h]

theorem parse_of_sound {text : String} (h : ∀ w ∈ words text.toList, ¬ Faulty w) :
    ∃ f, parse text = .ok f ∧
    ∀ cls, Decides cls ((words text.toList).flatMap expanded) (decision f.rules cls) := by
  obtain ⟨read, hread, hdecides⟩ := parseWords_of_sound h
  refine ⟨⟨read⟩, ?_, hdecides⟩
  unfold parse
  rw [hread]

/-- **A list is read** if none of its rules is faulty, and only then. -/
theorem parse_isOk_iff {text : String} :
    (∃ f, parse text = .ok f) ↔ ∀ w ∈ words text.toList, ¬ Faulty w := by
  refine ⟨fun ⟨f, hf⟩ w hw hfaulty => ?_, fun h => (parse_of_sound h).imp fun f hf => hf.1⟩
  cases hfind : (words text.toList).find? (fun w => Faulty w) with
  | none => exact absurd (decide_eq_true hfaulty) (List.find?_eq_none.mp hfind w hw)
  | some rule =>
    rw [parse_of_find hfind] at hf
    cases hf

/-! ## 5. Names -/

theorem slashed_of_sameName {name other : List Char} (h : SameName name other) :
    slashed name = slashed other := by
  unfold slashed Text.replaceChar
  induction h with
  | nil => rfl
  | cons hcd _ ih =>
    rw [List.map_cons, List.map_cons, ih]
    rcases hcd with rfl | ⟨rfl, rfl⟩ | ⟨rfl, rfl⟩ <;> rfl

/-- **A nested class** has the outermost class of the one it is nested in. -/
theorem outermost_nested (name rest : List Char) :
    outermost (name ++ '$' :: rest) = outermost name := by
  unfold outermost
  rw [slashed_append]
  have htail : slashed ('$' :: rest) = '$' :: slashed rest := rfl
  rw [htail, List.takeWhile_append]
  split
  · rename_i hall
    rw [List.takeWhile_cons_of_neg (by simp), List.append_nil]
    exact ((List.takeWhile_prefix _).eq_of_length hall).symm
  · rfl

/-- **Lists of rules compose and decide by the first rule that speaks of the outermost class.**  The
rules of a list are what its text holds between commas; it is refused exactly if one of them is
faulty, for the first such; two lists with a comma between them are read exactly if both are, and
then decide as the rules of the one followed by those of the other; and names that differ in dots
and slashes, or in what follows a dollar sign, are decided alike. -/
theorem parse_firstRule :
    (∀ (text : List Char) (rules : List (List Char)), RulesOf text rules ↔ rules = words text) ∧
    (∀ text : String, ((∃ e, parse text = .error e) ↔ ∃ w ∈ words text.toList, Faulty w) ∧
      ∀ e, parse text = .error e →
      ∃ rule, (words text.toList).find? (fun w => Faulty w) = some rule ∧
        e = .invalidFilterRule (String.ofList rule) text (faultOf rule)) ∧
    (∀ a b : String,
      ((∃ f, parse (a ++ "," ++ b) = .ok f) ↔ (∃ f, parse a = .ok f) ∧ ∃ f, parse b = .ok f) ∧
      ∀ f, parse (a ++ "," ++ b) = .ok f → ∀ name : String,
        Decides (outermost name.toList)
          ((words a.toList).flatMap expanded ++ (words b.toList).flatMap expanded)
            (f.includes name)) ∧
    (∀ (f : ClassFilter) (name other : String), SameName name.toList other.toList →
      f.includes name = f.includes other) ∧
    ∀ (f : ClassFilter) (name rest : String), f.includes (name ++ "$" ++ rest) =
      f.includes name := by
  have hcomma : ∀ a b : String, words (a ++ "," ++ b).toList =
      words a.toList ++ words b.toList := by
    intro a b
    rw [← words_append]
    simp
  refine ⟨fun _ _ => rulesOf_iff, fun text => ⟨?_, fun e he => ?_⟩,
    fun a b => ⟨?_, fun f hf name => ?_⟩,
    fun f name other h => ?_, fun f name rest => ?_⟩
  · constructor
    · rintro ⟨e, he⟩
      by_contra hnone
      obtain ⟨f, hf⟩ := parse_isOk_iff.mpr fun w hw hfaulty => hnone ⟨w, hw, hfaulty⟩
      rw [hf] at he
      cases he
    · rintro ⟨w, hw, hfaulty⟩
      cases hparse : parse text with
      | error e => exact ⟨e, rfl⟩
      | ok f => exact absurd hfaulty (parse_isOk_iff.mp ⟨f, hparse⟩ w hw)
  · cases hfind : (words text.toList).find? (fun w => Faulty w) with
    | none =>
      obtain ⟨f, hf⟩ := parse_isOk_iff.mpr fun w hw hfaulty =>
        absurd (decide_eq_true hfaulty) (List.find?_eq_none.mp hfind w hw)
      rw [hf] at he
      cases he
    | some rule =>
      rw [parse_of_find hfind] at he
      exact ⟨rule, rfl, (Except.error.inj he).symm⟩
  · rw [parse_isOk_iff, parse_isOk_iff, parse_isOk_iff, hcomma, List.forall_mem_append]
  · obtain ⟨f', hf', hdecides⟩ := parse_of_sound (parse_isOk_iff.mp ⟨f, hf⟩)
    obtain rfl := Except.ok.inj (hf.symm.trans hf')
    have hname := hdecides (outermost name.toList)
    rwa [hcomma, List.flatMap_append] at hname
  · rw [includes_eq, includes_eq, outermost, outermost, slashed_of_sameName h]
  · rw [includes_eq, includes_eq]
    congr 1
    simpa using outermost_nested name.toList rest.toList

/-- Two lists with a comma between them: a nested class is decided as its outermost one, by the last
rule of the second list, for none of those before it speaks of it.  A list with a star in the middle
of a rule is refused. -/
theorem allButInternal_firstRule :
    (∃ f, parse ("-demo.internal.*, %recommended" ++ "," ++ "+*") = .ok f ∧
      Decides "demo/Parser".toList ["-demo.internal.*".toList, "-flowtrack.*".toList,
        "-java.lang.invoke.*".toList, "+*".toList] (f.includes "demo.Parser$State") ∧
      f.includes ("demo.Parser" ++ "$" ++ "State") = f.includes "demo/Parser") ∧
    ∃ e, parse ("+de*mo" ++ "," ++ "+*") = .error e := by
  obtain ⟨-, hrefused, hcomma, hsame, hnested⟩ := parse_firstRule
  have hread : ∃ f, parse ("-demo.internal.*, %recommended" ++ "," ++ "+*") = .ok f := ⟨_, rfl⟩
  obtain ⟨f, hf⟩ := hread
  refine ⟨⟨f, hf, (hcomma _ _).2 f hf "demo.Parser$State", ?_⟩,
    (hrefused _).1.mpr ⟨"+de*mo".toList, by decide, by decide⟩⟩
  have hslash : SameName "demo.Parser".toList "demo/Parser".toList := by
    unfold SameName
    decide
  exact (hnested f "demo.Parser" "State").trans (hsame f _ _ hslash)

end ClassFilter

end Provenance
