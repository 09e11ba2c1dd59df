/-
# Whole numbers as text

Reading a whole number takes the entire text: an optional sign and at least one decimal digit.
Whether a minus sign is allowed, and how large the number may be, depends on who asks.
-/
import Provenance.Number.Power

namespace Provenance.Numeral

/-- The number that a list of decimal digits spells. -/
def ofDigits (cs : List Char) : Nat :=
  cs.foldl (fun n c => n * 10 + (c.toNat - 48)) 0

/-- At least one decimal digit and nothing else. -/
def digits? (cs : List Char) : Option Nat :=
  if cs.isEmpty || !cs.all Char.isDigit then none else some (ofDigits cs)

/-- A number without a minus sign, below the bound; a plus sign may stand in front. -/
def nat? (bound : Nat) (s : String) : Option Nat :=
  let body := match s.toList with
    | '+' :: cs => cs
    | cs => cs
  (digits? body).bind fun n => if n < bound then some n else none

/-- A number that `nat?` reads and that is not zero. -/
def positive? (bound : Nat) (s : String) : Option Nat :=
  (nat? bound s).bind fun n => if n = 0 then none else some n

/-- A number with an optional sign, at least `-bound` and below `bound`. -/
def int? (bound : Nat) (s : String) : Option Int :=
  match s.toList with
  | '-' :: cs => (digits? cs).bind fun n => if n ≤ bound then some (-(n : Int)) else none
  | '+' :: cs => (digits? cs).bind fun n => if n < bound then some (n : Int) else none
  | cs => (digits? cs).bind fun n => if n < bound then some (n : Int) else none

/-- The bound of 64-bit counts. -/
def wordBound : Nat := twoTo 64

/-- Ints run from minus this bound to below it. -/
def intBound : Nat := twoTo 31

/-- Longs run from minus this bound to below it. -/
def longBound : Nat := twoTo 63

/-- A number in hexadecimal with leading zeros up to a width. -/
def hexPadded (width n : Nat) : String :=
  let ds := Nat.toDigits 16 n
  String.ofList (List.replicate (width - ds.length) '0' ++ ds)

end Provenance.Numeral
