/-
# Arithmetic

Whole numbers wrap around, shifts use the low bits of the distance, and dividing by zero is an
error.  Floating operators never fail; those of 32 bits compute with 64 and round once more.
Converting a floating number to a whole one takes the nearest that fits, and zero for no number.
-/
import Provenance.Code.Constant
import Provenance.Machine.Heap

namespace Provenance

namespace BinaryOp

/-- An operator on ints; none if it divides by zero. -/
def onInt (op : BinaryOp) (x y : Int32) : Option Int32 :=
  match op with
  | add => some (x + y)
  | sub => some (x - y)
  | mul => some (x * y)
  | div => if y = 0 then none else some (x / y)
  | rem => if y = 0 then none else some (x % y)
  | and => some (x &&& y)
  | or => some (x ||| y)
  | xor => some (x ^^^ y)
  | shl => some (x <<< y)
  | shr => some (x >>> y)
  | ushr => some (x.toUInt32 >>> y.toUInt32).toInt32

/-- An operator on longs; none if it divides by zero. -/
def onLong (op : BinaryOp) (x y : Int64) : Option Int64 :=
  match op with
  | add => some (x + y)
  | sub => some (x - y)
  | mul => some (x * y)
  | div => if y = 0 then none else some (x / y)
  | rem => if y = 0 then none else some (x % y)
  | and => some (x &&& y)
  | or => some (x ||| y)
  | xor => some (x ^^^ y)
  | shl => some (x <<< y)
  | shr => some (x >>> y)
  | ushr => some (x.toUInt64 >>> y.toUInt64).toInt64

/-- An operator on floating numbers; none if it is for bits. -/
def onDouble (op : BinaryOp) (x y : Double) : Option Double :=
  match op with
  | add => some (x.add y)
  | sub => some (x.sub y)
  | mul => some (x.mul y)
  | div => some (x.div y)
  | rem => some (x.rem y)
  | _ => none

end BinaryOp

namespace Heap

/-- The result of a floating operator. -/
def floating {α : Type} : Option α → Except RunError α
  | some x => .ok x
  | none => .error (.typeMismatch "integral operands" "floating point")

/-- The result of a whole-number operator. -/
def integral {α : Type} : Option α → Except RunError α
  | some n => .ok n
  | none => .error .divisionByZero

/-- An operator of a type applied to two values.  Of two wrong operands a long operator names the
second, all others the first. -/
def binary (h : Heap) (op : BinaryOp) (t : Ty) (a b : Value) : Except RunError Value := do
  match t with
  | .long =>
    let y ← if op.isShift then Int32.toInt64 <$> h.int b else h.long b
    let x ← h.long a
    return .long (← integral (op.onLong x y))
  | .float =>
    let x ← h.float a
    let y ← h.float b
    return .float (← floating (op.onDouble x.widen y.widen)).narrow
  | .double =>
    let x ← h.double a
    let y ← h.double b
    return .double (← floating (op.onDouble x y))
  | _ =>
    let x ← h.int a
    let y ← h.int b
    return .int (← integral (op.onInt x y))

def toLong (h : Heap) : Value → Except RunError Int64
  | .int n => .ok n.toInt64
  | .long n => .ok n
  | .float x => .ok x.toFloat.toInt64
  | .double x => .ok x.toFloat.toInt64
  | v => h.mismatch "number" v

def toSingle (h : Heap) : Value → Except RunError Single
  | .int n => .ok ⟨n.toFloat32.toBits⟩
  | .long n => .ok ⟨n.toFloat32.toBits⟩
  | .float x => .ok x
  | .double x => .ok x.narrow
  | v => h.mismatch "number" v

def toDouble (h : Heap) : Value → Except RunError Double
  | .int n => .ok (.ofFloat n.toFloat)
  | .long n => .ok (.ofFloat n.toFloat)
  | .float x => .ok x.widen
  | .double x => .ok x
  | v => h.mismatch "number" v

def toInt (h : Heap) : Value → Except RunError Int32
  | .int n => .ok n
  | .long n => .ok n.toInt32
  | .float x => .ok x.toFloat.toInt32
  | .double x => .ok x.toFloat.toInt32
  | v => h.mismatch "number" v

/-- A number converted to a type. -/
def convert (h : Heap) (t : Ty) (v : Value) : Except RunError Value :=
  match t with
  | .long => .long <$> h.toLong v
  | .float => .float <$> h.toSingle v
  | .double => .double <$> h.toDouble v
  | .int | .byte | .char | .short | .boolean => (fun n => .int (narrowInt n t)) <$> h.toInt v
  | t => .error (.typeMismatch "numeric type" t.display)

end Heap

end Provenance
