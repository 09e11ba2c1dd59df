/-
# Which classes are woven

A rule list is a text of rules between commas.  A rule is a sign, which includes or excludes, and
a class name or the beginning of one, marked by a star at its end.  Dots and slashes mean the
same, and `%recommended` stands for the classes that must never be woven.  The first rule that
fits decides, a class that no rule fits is excluded, and nested classes follow their outermost
class.
-/
import Provenance.Flow.Error

namespace Provenance

/-- The classes that a rule speaks of. -/
inductive NamePattern where
  | exact (name : List Char)
  | leading (start : List Char)
  deriving DecidableEq, Repr

def NamePattern.fits : NamePattern → List Char → Bool
  | exact name, cs => name = cs
  | leading start, cs => start.isPrefixOf cs

structure FilterRule where
  included : Bool
  pattern : NamePattern
  deriving DecidableEq, Repr

/-- Rules in the order in which they are tried. -/
structure ClassFilter where
  rules : List FilterRule
  deriving DecidableEq, Repr

namespace ClassFilter

/-- A class name with slashes. -/
def slashed (cs : List Char) : List Char := Text.replaceChar '.' '/' cs

/-- The word that stands for the recommended rules. -/
def recommendedWord : List Char := "%recommended".toList

/-- Classes of the store itself and of the machine's linkage. -/
def recommended : List FilterRule :=
  [⟨false, .leading "flowtrack/".toList⟩, ⟨false, .leading "java/lang/invoke/".toList⟩]

/-- The pattern of a rule without its sign. -/
def pattern? (body : List Char) : Option NamePattern :=
  if body.getLast? = some '*' then
    if body.dropLast.contains '*' then none else some (.leading body.dropLast)
  else if body.contains '*' then none
  else some (.exact body)

/-- The rules of one word between commas. -/
def parseRule (word : List Char) : Except RuleFault (List FilterRule) :=
  if word = recommendedWord then .ok recommended
  else match word with
    | '+' :: body =>
      match pattern? (slashed body) with
      | some p => .ok [⟨true, p⟩]
      | none => .error .innerStar
    | '-' :: body =>
      match pattern? (slashed body) with
      | some p => .ok [⟨false, p⟩]
      | none => .error .innerStar
    | _ => .error .missingSign

/-- The rules of several words; the first that is no rule is named. -/
def parseWords : List (List Char) → Except (List Char × RuleFault) (List FilterRule)
  | [] => .ok []
  | word :: words =>
    match parseRule word with
    | .error fault => .error (word, fault)
    | .ok rules =>
      match parseWords words with
      | .error e => .error e
      | .ok more => .ok (rules ++ more)

/-- The words of a rule list: what stands between commas, without blanks around it. -/
def words (cs : List Char) : List (List Char) :=
  ((Text.splitAt ',' cs).map Text.trim).filter fun w => !w.isEmpty

/-- The filter of a rule list. -/
def parse (text : String) : Except WeaveError ClassFilter :=
  match parseWords (words text.toList) with
  | .ok rules => .ok ⟨rules⟩
  | .error (word, fault) => .error (.invalidFilterRule (String.ofList word) text fault)

/-- The outermost class of a name. -/
def outermost (cs : List Char) : List Char := (slashed cs).takeWhile (· ≠ '$')

/-- Whether a class is included. -/
def includes (f : ClassFilter) (className : String) : Bool :=
  match f.rules.find? fun r => r.pattern.fits (outermost className.toList) with
  | some r => r.included
  | none => false

end ClassFilter

end Provenance
