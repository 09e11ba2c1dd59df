/-
# Reading JSON

`parse?` reads one value that takes the whole text, blanks around it apart.  The recursion is
bounded by the length of the text, since every value takes at least one character.

A text is read in two steps: first into pieces, which are characters and halves of surrogate
pairs, and then the halves that stand together are joined.  A number without fraction and
exponent that fits 64 bits stays a whole number; any other one is scaled from its first digits,
which are as many as fit 64 bits, by a power of ten.
-/
import Provenance.Json.Basic
import Provenance.Number.Numeral

namespace Provenance.Json

/-! ## 1. Blanks and texts -/

/-- The four blanks of the format. -/
def isSpace (c : Char) : Bool := c = ' ' || c = '\n' || c = '\t' || c = '\r'

def skipSpace (cs : List Char) : List Char := cs.dropWhile isSpace

/-- A character of a text, or one half of a surrogate pair. -/
inductive Piece where
  | char (c : Char)
  | half (unit : Nat)
  deriving DecidableEq, Repr

/-- The value of a hexadecimal digit in either case. -/
def hexValue? (c : Char) : Option Nat :=
  if '0' ≤ c && c ≤ '9' then some (c.toNat - 48)
  else if 'a' ≤ c && c ≤ 'f' then some (c.toNat - 87)
  else if 'A' ≤ c && c ≤ 'F' then some (c.toNat - 55)
  else none

/-- What four hexadecimal digits name. -/
def unit? (a b c d : Char) : Option Piece := do
  let n := ((← hexValue? a) * 16 + (← hexValue? b)) * 256 + (← hexValue? c) * 16 + (← hexValue? d)
  if 0xD800 ≤ n ∧ n ≤ 0xDFFF then some (.half n) else some (.char (Char.ofNat n))

/-- The character that a backslash and a letter stand for. -/
def escaped? (c : Char) : Option Char :=
  if c = '"' || c = '\\' || c = '/' then some c
  else if c = 'b' then some (Char.ofNat 8)
  else if c = 'f' then some (Char.ofNat 12)
  else if c = 'n' then some '\n'
  else if c = 'r' then some '\r'
  else if c = 't' then some '\t'
  else none

/-- The pieces up to the closing quote, and what follows it. -/
def pieces? : List Char → Option (List Piece × List Char)
  | [] => none
  | '"' :: rest => some ([], rest)
  | '\\' :: 'u' :: a :: b :: c :: d :: rest =>
    match unit? a b c d, pieces? rest with
    | some p, some (ps, rest) => some (p :: ps, rest)
    | _, _ => none
  | '\\' :: e :: rest =>
    match escaped? e, pieces? rest with
    | some c, some (ps, rest) => some (.char c :: ps, rest)
    | _, _ => none
  | c :: rest =>
    if c.toNat < 32 || c = '\\' then none
    else match pieces? rest with
      | some (ps, rest) => some (.char c :: ps, rest)
      | none => none

/-- Joins the halves of pairs; a half without its partner denotes nothing. -/
def joinPieces? : List Piece → Option (List Char)
  | [] => some []
  | .char c :: ps => (joinPieces? ps).map (c :: ·)
  | .half high :: .half low :: ps =>
    if high < 0xDC00 ∧ 0xDC00 ≤ low then
      (joinPieces? ps).map (Char.ofNat (0x10000 + (high - 0xD800) * 0x400 + (low - 0xDC00)) :: ·)
    else none
  | .half _ :: _ => none

/-- The text after an opening quote, if it denotes one, and what follows the closing quote. -/
def text? (cs : List Char) : Option (Option String × List Char) :=
  match pieces? cs with
  | some (ps, rest) => some ((joinPieces? ps).map String.ofList, rest)
  | none => none

/-! ## 2. Numbers -/

/-- The digits at the front, and what follows them. -/
def spanDigits (cs : List Char) : List Char × List Char :=
  (cs.takeWhile Char.isDigit, cs.dropWhile Char.isDigit)

/-- A spelling of a number, cut into its parts. -/
structure Spelling where
  negative : Bool
  whole : List Char
  /-- The digits after the point, if there is a point. -/
  fraction : Option (List Char)
  /-- Whether the power is negative, and its digits, if there is a power. -/
  power : Option (Bool × List Char)

/-- The fraction of a number: a point and at least one digit, or nothing. -/
def fraction? : List Char → Option (Option (List Char) × List Char)
  | '.' :: cs =>
    match spanDigits cs with
    | ([], _) => none
    | (ds, rest) => some (some ds, rest)
  | cs => some (none, cs)

/-- The power of a number: a letter, perhaps a sign, and at least one digit, or nothing. -/
def power? : List Char → Option (Option (Bool × List Char) × List Char)
  | c :: cs =>
    if c = 'e' || c = 'E' then
      let (negative, cs) := match cs with
        | '-' :: r => (true, r)
        | '+' :: r => (false, r)
        | r => (false, r)
      match spanDigits cs with
      | ([], _) => none
      | (ds, rest) => some (some (negative, ds), rest)
    else some (none, c :: cs)
  | [] => some (none, [])

/-- The parts of the number at the front; a leading zero stands alone. -/
def spelling? (negative : Bool) (cs : List Char) : Option (Spelling × List Char) :=
  match spanDigits cs with
  | ([], _) => none
  | (d :: ds, rest) =>
    if d = '0' && !ds.isEmpty then none
    else match fraction? rest with
      | none => none
      | some (fraction, rest) =>
        match power? rest with
        | none => none
        | some (power, rest) => some (⟨negative, d :: ds, fraction, power⟩, rest)

/-- One more digit, while the number fits 64 bits. -/
def pushDigit? (n : Nat) (d : Char) : Option Nat :=
  let m := n * 10 + (d.toNat - 48)
  if m < Numeral.wordBound then some m else none

/-- As many digits as fit, and how many do not. -/
def wholeDigits (n : Nat) : List Char → Nat × Nat
  | [] => (n, 0)
  | d :: ds =>
    match pushDigit? n d with
    | some m => wholeDigits m ds
    | none => (n, ds.length + 1)

/-- Adds digits after the point as long as they fit, counting those taken. -/
def fractionDigits (n taken : Nat) : List Char → Nat × Nat
  | [] => (n, taken)
  | d :: ds =>
    match pushDigit? n d with
    | some m => fractionDigits m (taken + 1) ds
    | none => (n, taken)

/-- A number times a power of ten, with one rounding for each step of at most 308 decimal places;
`none` if it is too large. -/
def scaled? : Nat → Float → Int → Option Float
  | 0, f, _ => some f
  | fuel + 1, f, e =>
    if e.natAbs ≤ 308 then
      let power := Float.ofScientific 1 false e.natAbs
      if 0 ≤ e then
        let g := f * power
        if g.isInf then none else some g
      else some (f / power)
    else if f == 0 then some f
    else if 0 ≤ e then none
    else scaled? fuel (f / Float.ofScientific 1 false 308) (e + 308)

/-- The largest power of ten whose digits are read at all. -/
def powerLimit : Nat := 2147483647

/-- The value of a spelling, `unreadable` if it is too large. -/
def Spelling.value (s : Spelling) : Json :=
  let (n, dropped) := wholeDigits 0 s.whole
  let signed (f : Float) : Json := .number (.double (.ofFloat (if s.negative then -f else f)))
  if s.fraction.isNone && s.power.isNone && dropped = 0 then
    if !s.negative then .number (.natural n)
    else if 0 < n ∧ n ≤ Numeral.longBound then .number (.negative n)
    else signed (UInt64.ofNat n).toFloat
  else
    let (n, taken) := fractionDigits n 0 (s.fraction.getD [])
    let start : Int := dropped - taken
    let finish (e : Int) : Json :=
      match scaled? 8 (UInt64.ofNat n).toFloat e with
      | some f => signed f
      | none => .unreadable
    match s.power with
    | none => finish start
    | some (negative, ds) =>
      let p := Numeral.ofDigits ds
      if powerLimit < p then
        if n != 0 && !negative then .unreadable else signed 0
      else if negative then finish (start - p)
      else finish (start + p)

/-! ## 3. Values -/

/-- Drops a fixed word from the front. -/
def word? : List Char → List Char → Option (List Char)
  | [], cs => some cs
  | w :: ws, c :: cs => if w = c then word? ws cs else none
  | _ :: _, [] => none

/-- An object whose keys are all texts; with a key that denotes nothing it denotes nothing. -/
def ofMembers (members : List (Option String × Json)) : Json :=
  match members.mapM fun (k, j) => k.map fun k => (k, j) with
  | some fields => .object fields
  | none => .unreadable

mutual
/-- The value at the front, blanks before it apart. -/
def value? : Nat → List Char → Option (Json × List Char)
  | 0, _ => none
  | fuel + 1, cs =>
    match skipSpace cs with
    | [] => none
    | '"' :: rest =>
      match text? rest with
      | some (some s, rest) => some (.text s, rest)
      | some (none, rest) => some (.unreadable, rest)
      | none => none
    | '[' :: rest =>
      match skipSpace rest with
      | ']' :: rest => some (.list [], rest)
      | rest =>
        match items? fuel rest with
        | some (items, rest) => some (.list items, rest)
        | none => none
    | '-' :: rest =>
      match spelling? true rest with
      | some (s, rest) => some (s.value, rest)
      | none => none
    | 'n' :: rest => (word? ['u', 'l', 'l'] rest).map (.null, ·)
    | 't' :: rest => (word? ['r', 'u', 'e'] rest).map (.bool true, ·)
    | 'f' :: rest => (word? ['a', 'l', 's', 'e'] rest).map (.bool false, ·)
    | c :: rest =>
      if c = Char.ofNat 0x7B then
        match skipSpace rest with
        | d :: rest' =>
          if d = Char.ofNat 0x7D then some (.object [], rest')
          else match members? fuel rest with
            | some (members, rest) => some (ofMembers members, rest)
            | none => none
        | [] => none
      else
        match spelling? false (c :: rest) with
        | some (s, rest) => some (s.value, rest)
        | none => none

/-- The items up to the closing bracket; there is at least one. -/
def items? : Nat → List Char → Option (List Json × List Char)
  | 0, _ => none
  | fuel + 1, cs =>
    match value? fuel cs with
    | none => none
    | some (j, rest) =>
      match skipSpace rest with
      | ',' :: rest =>
        match items? fuel rest with
        | some (js, rest) => some (j :: js, rest)
        | none => none
      | ']' :: rest => some ([j], rest)
      | _ => none

/-- The fields up to the closing brace; there is at least one. -/
def members? : Nat → List Char → Option (List (Option String × Json) × List Char)
  | 0, _ => none
  | fuel + 1, cs =>
    match skipSpace cs with
    | '"' :: rest =>
      match text? rest with
      | none => none
      | some (k, rest) =>
        match skipSpace rest with
        | ':' :: rest =>
          match value? fuel rest with
          | none => none
          | some (j, rest) =>
            match skipSpace rest with
            | ',' :: rest =>
              match members? fuel rest with
              | some (fs, rest) => some ((k, j) :: fs, rest)
              | none => none
            | c :: rest => if c = Char.ofNat 0x7D then some ([(k, j)], rest) else none
            | [] => none
        | _ => none
    | _ => none
end

/-- The value that takes the whole text. -/
def parseChars? (cs : List Char) : Option Json :=
  match value? (cs.length + 1) cs with
  | some (j, rest) => if (skipSpace rest).isEmpty then some j else none
  | none => none

def parse? (s : String) : Option Json := parseChars? s.toList

end Provenance.Json
