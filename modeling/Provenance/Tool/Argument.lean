/-
# Arguments of the method to run

An argument is written as an integer, as `null`, or as a kind and a text with a colon between.
-/
import Provenance.Number.Numeral
import Provenance.Tool.Error

namespace Provenance

inductive Argument where
  | int (v : Int32)
  | null
  | str (text : String)
  /-- A char array whose contents come from a tracker of its own. -/
  | chars (text : String)
  /-- A char array with nothing in it yet. -/
  | buffer (length : Nat)
  deriving DecidableEq, Repr

namespace Argument

/-- What follows a prefix, if the text begins with it. -/
def after? (head text : String) : Option String :=
  if head.toList.isPrefixOf text.toList then some (String.ofList (text.toList.drop head.length))
  else none

def parse (text : String) : Except ToolError Argument :=
  if text = "null" then .ok .null
  else
    match after? "str:" text with
    | some rest => .ok (.str rest)
    | none =>
      match after? "chars:" text with
      | some rest => .ok (.chars rest)
      | none =>
        let read := match after? "buffer:" text with
          | some rest => (Numeral.nat? Numeral.wordBound rest).map buffer
          | none => (Numeral.int? Numeral.intBound text).map fun i => int (.ofInt i)
        match read with
        | some a => .ok a
        | none => .error (.invalidArgument text)

def encode : Argument → Json
  | int n => .tagged "int" (.int n.toInt)
  | null => .text "null"
  | str text => .tagged "str" (.text text)
  | chars text => .tagged "chars" (.text text)
  | buffer length => .tagged "buffer" (.nat length)

end Argument

end Provenance
