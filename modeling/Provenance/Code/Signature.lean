/-
# Method descriptors and signatures

A method descriptor is the descriptors of the parameters between parentheses and then that of the
result.  A name and a descriptor together are a signature; call records are matched by it.
-/
import Provenance.Code.Ty

namespace Provenance

/-- The types of a method's parameters and of its result. -/
structure MethodDesc where
  params : List Ty
  ret : Ty
  deriving DecidableEq, Repr, Inhabited

namespace MethodDesc

def descriptorChars (d : MethodDesc) : List Char :=
  '(' :: d.params.flatMap Ty.descriptorChars ++ ')' :: d.ret.descriptorChars

def descriptor (d : MethodDesc) : String := String.ofList d.descriptorChars

/-- Parameters up to the closing parenthesis, and what follows it; `fuel` bounds their number. -/
def scanParams : Nat → List Char → Except DescriptorFault (List Ty × List Char)
  | 0, _ => .error .unexpectedEnd
  | fuel + 1, cs =>
    match cs with
    | ')' :: rest => .ok ([], rest)
    | cs =>
      match Ty.scan cs with
      | .error fault => .error fault
      | .ok (t, rest) =>
        if t = .void then .error .voidParameter
        else match scanParams fuel rest with
          | .error fault => .error fault
          | .ok (ts, rest) => .ok (t :: ts, rest)

def ofChars : List Char → Except DescriptorFault MethodDesc
  | '(' :: cs =>
    match scanParams (cs.length + 1) cs with
    | .error fault => .error fault
    | .ok (params, rest) =>
      match Ty.ofChars rest with
      | .error _ => .error .invalidReturn
      | .ok ret => .ok ⟨params, ret⟩
  | _ => .error .missingParenthesis

def parse (s : String) : Except DescriptorFault MethodDesc := ofChars s.toList

/-- Whether the descriptor speaks of an array or of a class called a buffer. -/
def mentionsBuffer (d : MethodDesc) : Bool :=
  d.descriptorChars.contains '[' || Text.contains "Buffer".toList d.descriptorChars

end MethodDesc

/-- A name and a descriptor, by which a call record finds its callee. -/
def signatureOf (name descriptor : String) : String := name ++ " " ++ descriptor

/-- The key under which the provenance of a field is kept: its owner and its name. -/
def fieldKey (owner name : String) : String := owner ++ " " ++ name

end Provenance
