/-
# UTF-8: characters as bytes

Contents of trackers are bytes, texts are characters, and a text inside a content is found by the
byte at which each of its characters begins.  `encode` writes a text, `offsets` says where every
character of it starts, and `decodeLossy` reads any bytes back, putting one replacement character
for each longest piece that could have begun a character but does not complete one.
-/
namespace Provenance.Utf8

/-! ## 1. Writing -/

/-- The bytes of a list of characters, one character after the other. -/
def encode (cs : List Char) : List UInt8 :=
  cs.flatMap String.utf8EncodeChar

/-- The bytes of a text. -/
def bytes (s : String) : List UInt8 := encode s.toList

/-- How many bytes a text takes. -/
def byteLength (cs : List Char) : Nat := (encode cs).length

/-- Each character's first byte, when the text itself begins at byte `start`. -/
def offsets (start : Nat) : List Char → List Nat
  | [] => []
  | c :: cs => start :: offsets (start + (String.utf8EncodeChar c).length) cs

/-- Whether every character of the text takes one byte. -/
def isAscii (cs : List Char) : Bool := cs.all fun c => c.toNat < 128

@[simp] theorem encode_nil : encode [] = [] := rfl

@[simp] theorem encode_cons (c : Char) (cs : List Char) :
    encode (c :: cs) = String.utf8EncodeChar c ++ encode cs := by
  simp [encode]

@[simp] theorem encode_append (as bs : List Char) : encode (as ++ bs) = encode as ++ encode bs := by
  simp [encode]

@[simp] theorem length_offsets (start : Nat) (cs : List Char) :
    (offsets start cs).length = cs.length := by
  induction cs generalizing start with
  | nil => rfl
  | cons c cs ih => simp [offsets, ih]

/-! ## 2. Reading whatever is there -/

/-- Stands for bytes that are no character. -/
def replacement : Char := '\uFFFD'

/-- How many bytes follow a first byte, and the range in which the very next one must lie. -/
def lead (b : UInt8) : Option (Nat × UInt8 × UInt8) :=
  if 0xC2 ≤ b && b ≤ 0xDF then some (1, 0x80, 0xBF)
  else if b = 0xE0 then some (2, 0xA0, 0xBF)
  else if b = 0xED then some (2, 0x80, 0x9F)
  else if 0xE1 ≤ b && b ≤ 0xEF then some (2, 0x80, 0xBF)
  else if b = 0xF0 then some (3, 0x90, 0xBF)
  else if 0xF1 ≤ b && b ≤ 0xF3 then some (3, 0x80, 0xBF)
  else if b = 0xF4 then some (3, 0x80, 0x8F)
  else none

/-- The scalar value spelled by a first byte and the bytes that follow it. -/
def scalar (first : UInt8) (tail : List UInt8) : Nat :=
  let top := match tail.length with
    | 1 => first.toNat % 32
    | 2 => first.toNat % 16
    | _ => first.toNat % 8
  tail.foldl (fun n b => n * 64 + b.toNat % 64) top

/-- As many leading bytes as can follow a first byte, at most `count`, the next one between the
given bounds. -/
def tails (count : Nat) (low high : UInt8) : List UInt8 → List UInt8
  | [] => []
  | b :: bs =>
    match count with
    | 0 => []
    | n + 1 => if low ≤ b && b ≤ high then b :: tails n 0x80 0xBF bs else []

/-- One step of reading: the character found and how many bytes it took. -/
def next : UInt8 → List UInt8 → Char × Nat
  | b, rest =>
    if b < 0x80 then (Char.ofNat b.toNat, 1)
    else match lead b with
      | none => (replacement, 1)
      | some (count, low, high) =>
        let tail := tails count low high rest
        if tail.length = count then (Char.ofNat (scalar b tail), 1 + count)
        else (replacement, 1 + tail.length)

/-- Reads at most `fuel` characters. -/
def decodeSteps : Nat → List UInt8 → List Char
  | 0, _ => []
  | _, [] => []
  | fuel + 1, b :: rest =>
    let (c, taken) := next b rest
    c :: decodeSteps fuel (rest.drop (taken - 1))

/-- Bytes as text; what is no character shows as the replacement character. -/
def decodeLossy (bs : List UInt8) : String :=
  String.ofList (decodeSteps bs.length bs)

end Provenance.Utf8
