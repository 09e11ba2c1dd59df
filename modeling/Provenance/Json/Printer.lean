/-
# Writing JSON

`compact` writes a value without any blank, `pretty` on several lines with two blanks for each
level.  Inside a text only the quote, the backslash and the control characters are escaped.
-/
import Provenance.Json.Basic
import Provenance.Number.Numeral

namespace Provenance.Json

/-- One character between the quotes. -/
def escapeChar (c : Char) : List Char :=
  if c = '"' then ['\\', '"']
  else if c = '\\' then ['\\', '\\']
  else if c = '\n' then ['\\', 'n']
  else if c = '\r' then ['\\', 'r']
  else if c = '\t' then ['\\', 't']
  else if c = Char.ofNat 8 then ['\\', 'b']
  else if c = Char.ofNat 12 then ['\\', 'f']
  else if c.toNat < 32 then
    ['\\', 'u', '0', '0', Nat.digitChar (c.toNat / 16), Nat.digitChar (c.toNat % 16)]
  else [c]

/-- A text between quotes. -/
def quoted (s : String) : List Char := '"' :: s.toList.flatMap escapeChar ++ ['"']

/-- A number; one that is not finite has no spelling and becomes `null`. -/
def Number.render : Number → List Char
  | .natural n => Nat.toDigits 10 n
  | .negative n => '-' :: Nat.toDigits 10 n
  | .double x => (x.store.getD "null").toList
  | .single x => (x.store.getD "null").toList

def openBrace : Char := Char.ofNat 0x7B
def closeBrace : Char := Char.ofNat 0x7D

mutual
/-- The value without any blank. -/
def compactChars : Json → List Char
  | .null => ['n', 'u', 'l', 'l']
  | .bool true => ['t', 'r', 'u', 'e']
  | .bool false => ['f', 'a', 'l', 's', 'e']
  | .number n => n.render
  | .text s => quoted s
  | .list items => '[' :: compactItems items
  | .object fields => openBrace :: compactFields fields
  | .unreadable => ['n', 'u', 'l', 'l']

def compactItems : List Json → List Char
  | [] => [']']
  | [j] => compactChars j ++ [']']
  | j :: js => compactChars j ++ ',' :: compactItems js

def compactFields : List (String × Json) → List Char
  | [] => [closeBrace]
  | [(k, j)] => quoted k ++ ':' :: compactChars j ++ [closeBrace]
  | (k, j) :: fs => quoted k ++ ':' :: compactChars j ++ ',' :: compactFields fs
end

/-- A new line at the given level. -/
def newLine (level : Nat) : List Char := '\n' :: List.replicate (2 * level) ' '

mutual
/-- The value on several lines, standing at the given level. -/
def prettyChars (level : Nat) : Json → List Char
  | .null => ['n', 'u', 'l', 'l']
  | .bool true => ['t', 'r', 'u', 'e']
  | .bool false => ['f', 'a', 'l', 's', 'e']
  | .number n => n.render
  | .text s => quoted s
  | .list [] => ['[', ']']
  | .list (j :: js) =>
    '[' :: newLine (level + 1) ++ prettyChars (level + 1) j ++ prettyItems (level + 1) js ++
      newLine level ++ [']']
  | .object [] => [openBrace, closeBrace]
  | .object ((k, j) :: fs) =>
    openBrace :: newLine (level + 1) ++ quoted k ++ ':' :: ' ' :: prettyChars (level + 1) j ++
      prettyFields (level + 1) fs ++ newLine level ++ [closeBrace]
  | .unreadable => ['n', 'u', 'l', 'l']

/-- The items after the first. -/
def prettyItems (level : Nat) : List Json → List Char
  | [] => []
  | j :: js => ',' :: newLine level ++ prettyChars level j ++ prettyItems level js

/-- The fields after the first. -/
def prettyFields (level : Nat) : List (String × Json) → List Char
  | [] => []
  | (k, j) :: fs =>
    ',' :: newLine level ++ quoted k ++ ':' :: ' ' :: prettyChars level j ++ prettyFields level fs
end

def compact (j : Json) : String := String.ofList j.compactChars
def pretty (j : Json) : String := String.ofList (j.prettyChars 0)

end Provenance.Json
