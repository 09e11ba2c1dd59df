/-
# Tables of literals

A class whose literals are tracked has a table: an origin whose content is a readable list of
them.  Code names a literal by the number of the table and the range of its bytes.
-/
import Provenance.Code.Insn
import Provenance.Store.Basic

namespace Provenance.Store

/-- The text of a whole-number literal: a printable ASCII character as itself, anything else in
hexadecimal, as a 64-bit word, and in decimal. -/
def renderConstant (value : Int64) : List Char :=
  if 32 ≤ value.toInt ∧ value.toInt < 127 then [Char.ofNat value.toInt.toNat]
  else
    ['0', 'x'] ++ Nat.toDigits 16 value.toUInt64.toNat ++ [' ', '('] ++
      (toString value.toInt).toList ++ [')']

/-- Appends a text to a content. -/
def write (s : Store) (id : TrackerId) (text : List Char) : Except StoreError Store :=
  s.onLedger fun l => l.append id (Utf8.encode text)

/-- Opens the table of a class and gives its number. -/
def registerClass (s : Store) (className : String) : Except StoreError (Nat × Store) :=
  let heading := "class " ++ Ty.dotted className
  let (id, s) := s.addTracker (.new .origin [] (some heading))
  match s.write id (heading.toList ++ ['\n']) with
  | .error e => .error e
  | .ok s => .ok (s.tables.length, { s with tables := s.tables ++ [⟨className, id⟩] })

/-- The table of a number. -/
def table (s : Store) (classId : Nat) : Except StoreError ConstantTable :=
  match s.tables[classId]? with
  | some t => .ok t
  | none => .error (.unknownTable classId)

/-- Begins the section of the method whose literals follow. -/
def startMethod (s : Store) (classId : Nat) (description : String) : Except StoreError Store :=
  match s.table classId with
  | .error e => .error e
  | .ok t => s.write t.tracker (description.toList ++ [':', '\n'])

/-- Writes a literal on a line of its own and gives the byte at which it begins. -/
def writeLiteral (s : Store) (classId : Nat) (text : List Char) : Except StoreError (Nat × Store) :=
  match s.table classId with
  | .error e => .error e
  | .ok t =>
    match s.write t.tracker [' ', ' '] with
    | .error e => .error e
    | .ok s =>
      let offset := s.ledger.length t.tracker
      match s.write t.tracker text with
      | .error e => .error e
      | .ok s =>
        match s.write t.tracker ['\n'] with
        | .error e => .error e
        | .ok s => .ok (offset, s)

/-- Registers a whole-number literal. -/
def registerConstant (s : Store) (classId : Nat) (value : Int64) :
    Except StoreError (ClassConstant × Store) :=
  let text := renderConstant value
  match s.writeLiteral classId text with
  | .error e => .error e
  | .ok (offset, s) => .ok (⟨classId, offset, Utf8.byteLength text⟩, s)

/-- Registers a string literal and gives the byte at which it begins. -/
def registerString (s : Store) (classId : Nat) (text : String) : Except StoreError (Nat × Store) :=
  s.writeLiteral classId text.toList

/-- The point of a range of a table. -/
def constantPoint (s : Store) (classId offset length : Nat) : Except StoreError Point :=
  match s.table classId with
  | .error e => .error e
  | .ok t =>
    let tableLength := s.ledger.length t.tracker
    if tableLength < offset + length then
      .error (.constantOutOfRange classId offset length tableLength)
    else .ok ⟨t.tracker, offset, length⟩

/-- The text of a table. -/
def tableText (s : Store) (t : ConstantTable) : String :=
  match s.ledger.tracker? t.tracker with
  | some tracker => tracker.text
  | none => ""

end Provenance.Store
