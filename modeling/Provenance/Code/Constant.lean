/-
# Literals, operators and conditions
-/
import Provenance.Code.Ty
import Provenance.Number.Shortest
import Provenance.Text.Quoted

namespace Provenance

/-- A literal that an instruction pushes. -/
inductive Constant where
  | int (value : Int32)
  | long (value : Int64)
  | float (value : Single)
  | double (value : Double)
  | null
  | str (text : String)
  deriving DecidableEq, Repr, Inhabited

namespace Constant

def ty : Constant → Ty
  | .int _ => .int
  | .long _ => .long
  | .float _ => .float
  | .double _ => .double
  | .null => .null
  | .str _ => .string

/-- The value of a whole-number literal. -/
def integral? : Constant → Option Int64
  | .int v => some v.toInt64
  | .long v => some v
  | _ => none

def display : Constant → String
  | .int v => toString v.toInt
  | .long v => toString v.toInt ++ "L"
  | .float v => v.display ++ "f"
  | .double v => v.display ++ "d"
  | .null => "null"
  | .str s => Text.quote s

end Constant

/-- An operator on two numbers. -/
inductive BinaryOp where
  | add | sub | mul | div | rem | and | or | xor | shl | shr | ushr
  deriving DecidableEq, Repr, Inhabited

def BinaryOp.name : BinaryOp → String
  | add => "add"
  | sub => "sub"
  | mul => "mul"
  | div => "div"
  | rem => "rem"
  | and => "and"
  | or => "or"
  | xor => "xor"
  | shl => "shl"
  | shr => "shr"
  | ushr => "ushr"

def BinaryOp.all : List BinaryOp := [add, sub, mul, div, rem, and, or, xor, shl, shr, ushr]

/-- Whether the operator moves bits by a number of places. -/
def BinaryOp.isShift : BinaryOp → Bool
  | shl | shr | ushr => true
  | _ => false

/-- A comparison that decides a jump. -/
inductive Cond where
  | eq | ne | lt | ge | gt | le
  deriving DecidableEq, Repr, Inhabited

namespace Cond

def name : Cond → String
  | eq => "eq"
  | ne => "ne"
  | lt => "lt"
  | ge => "ge"
  | gt => "gt"
  | le => "le"

/-- The name with a capital, as listings show it. -/
def title : Cond → String
  | eq => "Eq"
  | ne => "Ne"
  | lt => "Lt"
  | ge => "Ge"
  | gt => "Gt"
  | le => "Le"

def all : List Cond := [eq, ne, lt, ge, gt, le]

/-- Whether the condition is met by a pair that compares like this. -/
def holds : Cond → Ordering → Bool
  | eq, o => o == .eq
  | ne, o => o != .eq
  | lt, o => o == .lt
  | ge, o => o != .lt
  | gt, o => o == .gt
  | le, o => o != .gt

def negate : Cond → Cond
  | eq => ne
  | ne => eq
  | lt => ge
  | ge => lt
  | gt => le
  | le => gt

end Cond

end Provenance
