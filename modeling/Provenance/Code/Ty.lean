/-
# Types of values and their descriptors

A type is written in one of two ways.  Its descriptor is what a stored class holds: one letter for
a primitive type, `L` name `;` for a class, `[` before the descriptor of the elements for an
array.  Its display is what listings show.  `Ty.parse?` reads exactly the descriptors and names
the first fault of any other text.
-/
import Provenance.Text.Blank

namespace Provenance

/-- The type of a value, or `void` for no value. -/
inductive Ty where
  | void
  | boolean
  | byte
  | char
  | short
  | int
  | long
  | float
  | double
  | object (name : String)
  | array (elem : Ty)
  deriving DecidableEq, Repr, Inhabited

/-- Why a text is no descriptor. -/
inductive DescriptorFault where
  | unexpectedEnd
  | unterminatedName
  | emptyName
  | voidElements
  | unknownCharacter (c : Char)
  | trailing (rest : String)
  | missingParenthesis
  | voidParameter
  | invalidReturn
  deriving DecidableEq, Repr

def DescriptorFault.message : DescriptorFault → String
  | unexpectedEnd => "unexpected end"
  | unterminatedName => "unterminated class name"
  | emptyName => "empty class name"
  | voidElements => "array of void"
  | unknownCharacter c => "unknown type character '" ++ String.singleton c ++ "'"
  | trailing rest => "trailing '" ++ rest ++ "'"
  | missingParenthesis => "missing '('"
  | voidParameter => "void parameter"
  | invalidReturn => "invalid return type"

namespace Ty

/-! ## 1. Kinds of types -/

def stringClass : String := "java/lang/String"
def objectClass : String := "java/lang/Object"
/-- The class name of the type that the constant `null` has; it fits any reference. -/
def nullClass : String := "null"

def string : Ty := .object stringClass
def null : Ty := .object nullClass

/-- The scalars whose provenance is followed. -/
def isTrackedScalar : Ty → Bool
  | .byte | .char => true
  | _ => false

/-- The element types of arrays whose element reads are followed. -/
def isTrackedElement : Ty → Bool
  | .byte | .char | .int => true
  | _ => false

def isReference : Ty → Bool
  | .object _ | .array _ => true
  | _ => false

def isString (t : Ty) : Bool := t == string
def isNull (t : Ty) : Bool := t == null

/-! ## 2. Writing -/

def descriptorChars : Ty → List Char
  | .void => ['V']
  | .boolean => ['Z']
  | .byte => ['B']
  | .char => ['C']
  | .short => ['S']
  | .int => ['I']
  | .long => ['J']
  | .float => ['F']
  | .double => ['D']
  | .object name => 'L' :: name.toList ++ [';']
  | .array elem => '[' :: elem.descriptorChars

def descriptor (t : Ty) : String := String.ofList t.descriptorChars

/-- A class name with dots, as people write it. -/
def dotted (name : String) : String := String.ofList (Text.replaceChar '/' '.' name.toList)

def display : Ty → String
  | .void => "void"
  | .boolean => "boolean"
  | .byte => "byte"
  | .char => "char"
  | .short => "short"
  | .int => "int"
  | .long => "long"
  | .float => "float"
  | .double => "double"
  | .object name => dotted name
  | .array elem => elem.display ++ "[]"

/-! ## 3. Reading -/

/-- The type that a single letter stands for. -/
def primitive? : Char → Option Ty
  | 'V' => some .void
  | 'Z' => some .boolean
  | 'B' => some .byte
  | 'C' => some .char
  | 'S' => some .short
  | 'I' => some .int
  | 'J' => some .long
  | 'F' => some .float
  | 'D' => some .double
  | _ => none

/-- The type at the front of the text, and what follows it. -/
def scan : List Char → Except DescriptorFault (Ty × List Char)
  | [] => .error .unexpectedEnd
  | c :: cs =>
    if c = 'L' then
      match cs.dropWhile (· ≠ ';') with
      | [] => .error .unterminatedName
      | _ :: rest =>
        if (cs.takeWhile (· ≠ ';')).isEmpty then .error .emptyName
        else .ok (.object (String.ofList (cs.takeWhile (· ≠ ';'))), rest)
    else if c = '[' then
      match scan cs with
      | .error fault => .error fault
      | .ok (elem, rest) => if elem = .void then .error .voidElements else .ok (.array elem, rest)
    else match primitive? c with
      | some t => .ok (t, cs)
      | none => .error (.unknownCharacter c)

/-- The type that the whole text describes. -/
def ofChars (cs : List Char) : Except DescriptorFault Ty :=
  match scan cs with
  | .error fault => .error fault
  | .ok (t, rest) => if rest.isEmpty then .ok t else .error (.trailing (String.ofList rest))

def parse (s : String) : Except DescriptorFault Ty := ofChars s.toList

end Ty

end Provenance
