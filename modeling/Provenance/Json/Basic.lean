/-
# JSON values

Classes, configurations and reports are stored as JSON.  An object keeps its fields in order and
may name one twice, because a reader of a class must notice that.  A literal that is spelled
correctly but denotes nothing (half of a surrogate pair, a number beyond the largest one) is
`unreadable`: harmless in a field that nobody asks for, refused everywhere else.
-/
import Provenance.Number.Shortest

namespace Provenance

/-- A number as its spelling classifies it. -/
inductive Json.Number where
  /-- Below two to the 64. -/
  | natural (n : Nat)
  /-- Minus `n`, where `n` is positive and at most two to the 63. -/
  | negative (n : Nat)
  | double (x : Double)
  | single (x : Single)
  deriving DecidableEq, Repr

inductive Json where
  | null
  | bool (b : Bool)
  | number (n : Json.Number)
  | text (s : String)
  | list (items : List Json)
  | object (fields : List (String × Json))
  | unreadable
  deriving Repr, Inhabited

namespace Json

def nat (n : Nat) : Json := .number (.natural n)

def int (i : Int) : Json :=
  if i < 0 then .number (.negative i.natAbs) else .number (.natural i.natAbs)

/-- An object with a single field, the form of a variant that carries something. -/
def tagged (tag : String) (payload : Json) : Json := .object [(tag, payload)]

def ofOption {α : Type} (f : α → Json) : Option α → Json
  | none => .null
  | some a => f a

mutual
/-- The value as a map would hold it: of the fields with one name only the last remains. -/
def lastWins : Json → Json
  | .list items => .list (lastWinsItems items)
  | .object fields => .object (lastWinsFields fields)
  | j => j

def lastWinsItems : List Json → List Json
  | [] => []
  | j :: js => lastWins j :: lastWinsItems js

def lastWinsFields : List (String × Json) → List (String × Json)
  | [] => []
  | (k, j) :: fs =>
    let rest := lastWinsFields fs
    if rest.any (·.1 == k) then rest else (k, lastWins j) :: rest
end

end Json

end Provenance
