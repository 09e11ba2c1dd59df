/-
# Quoted texts

A string literal is listed between double quotes.  The quote, the backslash and the commonest
controls have two-character forms, and what has no shape of its own is written by number in hex.
-/
import Provenance.Text.Shapeless

namespace Provenance.Text

/-- A character by its number: backslash, `u`, and the hexadecimal digits in braces. -/
def byNumber (c : Char) : List Char :=
  ['\\', 'u', Char.ofNat 0x7B] ++ Nat.toDigits 16 c.toNat ++ [Char.ofNat 0x7D]

/-- One character as it stands between the quotes. -/
def quoteChar (c : Char) : List Char :=
  if c = Char.ofNat 0 then ['\\', '0']
  else if c = '\t' then ['\\', 't']
  else if c = '\r' then ['\\', 'r']
  else if c = '\n' then ['\\', 'n']
  else if c = '\\' then ['\\', '\\']
  else if c = '"' then ['\\', '"']
  else if isShapeless c then byNumber c
  else [c]

/-- A text between double quotes. -/
def quote (s : String) : String :=
  String.ofList ('"' :: s.toList.flatMap quoteChar ++ ['"'])

end Provenance.Text
