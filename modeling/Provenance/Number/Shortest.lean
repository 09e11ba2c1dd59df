/-
# Shortest decimal text of a floating number

A floating number is written with the fewest digits that read back as the same number.  All
decimals that read back lie in an interval around the number; `shortest` looks for the coarsest
decimal grid with a point in it, trying on each grid the two neighbours of the number.  The rest
is layout: `plain` never uses an exponent, `compact` uses one for very large and very small
numbers and always shows a point or an exponent.
-/
import Provenance.Number.Binary

namespace Provenance

/-- `digits` times ten to the `exponent`. -/
structure Decimal where
  digits : Nat
  exponent : Int
  deriving DecidableEq, Repr, Inhabited

namespace Decimal

/-- Which of two equally near decimals is taken. -/
inductive Tie where
  | up
  | even
  deriving DecidableEq, Repr

/-- A number as four times its significand, in quarters of the last place, and the interval of
numbers that read back as it. -/
structure Interval where
  low : Nat
  middle : Nat
  high : Nat
  /-- Whether the ends themselves read back. -/
  closed : Bool
  /-- The power of two of one quarter. -/
  power : Int

/-- The interval of a significand and exponent in a format.  Below a power of two the numbers lie
closer together, so the interval is narrower on that side. -/
def Interval.of (l : Layout) (m : Nat) (e : Int) : Interval :=
  let narrow := m = twoTo l.fractionBits ∧ l.minExponent < e
  ⟨4 * m - (if narrow then 1 else 2), 4 * m, 4 * m + 2, m % 2 = 0, e - 2⟩

/-- The point of the grid of step ten to the `k` in the interval that lies nearest its middle, if
there is one. -/
def Interval.onGrid (i : Interval) (tie : Tie) (k : Int) : Option Nat :=
  let up := twoTo i.power.toNat * tenTo (-k).toNat
  let down := tenTo k.toNat * twoTo (-i.power).toNat
  let holds (c : Nat) : Bool :=
    if i.closed then i.low * up ≤ c * down && c * down ≤ i.high * up
    else i.low * up < c * down && c * down < i.high * up
  let below := i.middle * up / down
  let above := below + 1
  match holds below && below != 0, holds above with
  | false, false => none
  | true, false => some below
  | false, true => some above
  | true, true =>
    let toBelow := i.middle * up - below * down
    let toAbove := above * down - i.middle * up
    if toBelow < toAbove then some below
    else if toAbove < toBelow then some above
    else match tie with
      | .up => some above
      | .even => some (if below % 2 = 0 then below else above)

/-- Tries one grid after the other, each ten times finer than the one before. -/
def Interval.search (i : Interval) (tie : Tie) : Nat → Int → Decimal
  | 0, k => ⟨0, k⟩
  | fuel + 1, k =>
    match i.onGrid tie k with
    | some c => ⟨c, k⟩
    | none => i.search tie fuel (k - 1)

/-- The shortest decimal that reads back as the number, which is not zero. -/
def shortest (l : Layout) (tie : Tie) (m : Nat) (e : Int) : Decimal :=
  let width : Int := Nat.log2 m + 1 + e
  let first := Int.fdiv (width * 30103) 100000 + 2
  (Interval.of l m e).search tie 800 first

/-- Where the decimal point stands, counted from the first digit. -/
def point (d : Decimal) : Int := (Nat.toDigits 10 d.digits).length + d.exponent

/-- The digits with the point in its place and zeros where there are no digits. -/
def plain (d : Decimal) : List Char :=
  let ds := Nat.toDigits 10 d.digits
  let p := d.point
  if p ≤ 0 then '0' :: '.' :: List.replicate (-p).toNat '0' ++ ds
  else if 0 ≤ d.exponent then ds ++ List.replicate d.exponent.toNat '0'
  else ds.take p.toNat ++ '.' :: ds.drop p.toNat

/-- One digit before the point and a power of ten after it, which always shows its sign. -/
def scientific (d : Decimal) : List Char :=
  let ds := Nat.toDigits 10 d.digits
  let power := d.point - 1
  let tail := ds.drop 1
  let sign := if 0 ≤ power then '+' else '-'
  ds.take 1 ++ (if tail.isEmpty then [] else '.' :: tail) ++
    'e' :: sign :: Nat.toDigits 10 power.natAbs

/-- Positional if the point stands after at most `most` digits and before at most `least` zeros. -/
def compact (least most : Nat) (d : Decimal) : List Char :=
  let p := d.point
  if 0 ≤ d.exponent && p ≤ most then d.plain ++ ['.', '0']
  else if 0 < p && p ≤ most then d.plain
  else if -(least : Int) < p && p ≤ 0 then d.plain
  else d.scientific

end Decimal

/-- The text of a number in listings and concatenations: positional whatever its size, and without
a point if it is whole. -/
def Magnitude.display (l : Layout) (value : Bool × Magnitude) : String :=
  match value with
  | (_, .nan) => "NaN"
  | (negative, .infinite) => if negative then "-inf" else "inf"
  | (negative, .finite m e) =>
    let text := if m = 0 then ['0'] else (Decimal.shortest l .up m e).plain
    String.ofList (if negative then '-' :: text else text)

/-- The text of a finite number in a stored class; it always shows that it is no integer. -/
def Magnitude.store (l : Layout) (least most : Nat) (value : Bool × Magnitude) : Option String :=
  match value with
  | (negative, .finite m e) =>
    let text := if m = 0 then ['0', '.', '0'] else (Decimal.shortest l .even m e).compact least most
    some (String.ofList (if negative then '-' :: text else text))
  | _ => none

def Single.display (x : Single) : String := Magnitude.display .single x.decode
def Double.display (x : Double) : String := Magnitude.display .double x.decode
def Single.store (x : Single) : Option String := Magnitude.store .single 6 13 x.decode
def Double.store (x : Double) : Option String := Magnitude.store .double 5 16 x.decode

end Provenance
