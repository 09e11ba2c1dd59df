/-
# Binary floating point, by bit pattern

A floating constant is its bit pattern, so two constants are equal exactly if they are the same
pattern.  `Layout.decode` reads a pattern as a sign, a significand and a power of two, and
`Layout.encode` writes such a number back; the remainder of two numbers is computed on them, in
whole-number arithmetic, because the remainder of two representable numbers is representable.
-/
import Provenance.Number.Power

namespace Provenance

/-- A 32-bit floating number. -/
structure Single where
  bits : UInt32
  deriving DecidableEq, Repr, Inhabited

/-- A 64-bit floating number. -/
structure Double where
  bits : UInt64
  deriving DecidableEq, Repr, Inhabited

/-- What a bit pattern says. -/
inductive Magnitude where
  | nan
  | infinite
  /-- `significand` times two to the `exponent`. -/
  | finite (significand : Nat) (exponent : Int)
  deriving DecidableEq, Repr

/-- How a format divides its bits, the sign bit apart. -/
structure Layout where
  fractionBits : Nat
  exponentBits : Nat
  deriving DecidableEq, Repr

namespace Layout

def single : Layout := ⟨23, 8⟩
def double : Layout := ⟨52, 11⟩

/-- The exponent of the smallest numbers of the format. -/
def minExponent (l : Layout) : Int := 3 - (twoTo (l.exponentBits - 1) : Int) - l.fractionBits - 1

/-- The sign and the magnitude of a pattern. -/
def decode (l : Layout) (bits : Nat) : Bool × Magnitude :=
  let fraction := bits % twoTo l.fractionBits
  let exponent := bits / twoTo l.fractionBits % twoTo l.exponentBits
  let negative := bits / twoTo (l.fractionBits + l.exponentBits) % 2 = 1
  let magnitude :=
    if exponent = twoTo l.exponentBits - 1 then
      if fraction = 0 then .infinite else .nan
    else if exponent = 0 then .finite fraction l.minExponent
    else .finite (twoTo l.fractionBits + fraction) (l.minExponent + (exponent - 1 : Nat))
  (negative, magnitude)

/-- The pattern of a number that the format can hold exactly: the significand is moved up as far
as its width and the exponent allow. -/
def encode (l : Layout) (negative : Bool) (significand : Nat) (exponent : Int) : Nat :=
  let sign := if negative then twoTo (l.fractionBits + l.exponentBits) else 0
  if significand = 0 then sign
  else
    let room := l.fractionBits - Nat.log2 significand
    let shift := min room (exponent - l.minExponent).toNat
    let wide := significand * twoTo shift
    let power := (exponent - shift - l.minExponent).toNat
    if wide < twoTo l.fractionBits then sign + wide
    else sign + (power + 1) * twoTo l.fractionBits + (wide - twoTo l.fractionBits)

end Layout

namespace Double

def toFloat (x : Double) : Float := Float.ofBits x.bits
def ofFloat (x : Float) : Double := ⟨x.toBits⟩

def decode (x : Double) : Bool × Magnitude := Layout.double.decode x.bits.toNat

def isNaN (x : Double) : Bool := x.decode.2 = .nan
def isFinite (x : Double) : Bool :=
  match x.decode.2 with
  | .finite .. => true
  | _ => false

def nan : Double := ⟨0x7FF8000000000000⟩

def add (x y : Double) : Double := ofFloat (x.toFloat + y.toFloat)
def sub (x y : Double) : Double := ofFloat (x.toFloat - y.toFloat)
def mul (x y : Double) : Double := ofFloat (x.toFloat * y.toFloat)
def div (x y : Double) : Double := ofFloat (x.toFloat / y.toFloat)

/-- What is left of the first after taking away a whole number of times the second; it has the
sign of the first. -/
def rem (x y : Double) : Double :=
  match x.decode, y.decode with
  | (_, .nan), _ => nan
  | _, (_, .nan) => nan
  | (_, .infinite), _ => nan
  | _, (_, .infinite) => x
  | (negative, .finite m e), (_, .finite n f) =>
    if n = 0 then nan
    else
      let low := min e f
      let left := (m * twoTo (e - low).toNat) % (n * twoTo (f - low).toNat)
      ⟨UInt64.ofNat (Layout.double.encode negative left low)⟩

end Double

namespace Single

def toFloat (x : Single) : Float := (Float32.ofBits x.bits).toFloat
def ofFloat (x : Float) : Single := ⟨x.toFloat32.toBits⟩

/-- The same number with 64 bits. -/
def widen (x : Single) : Double := .ofFloat x.toFloat

def decode (x : Single) : Bool × Magnitude := Layout.single.decode x.bits.toNat

def isFinite (x : Single) : Bool :=
  match x.decode.2 with
  | .finite .. => true
  | _ => false

end Single

/-- The nearest 32-bit number. -/
def Double.narrow (x : Double) : Single := .ofFloat x.toFloat

end Provenance
