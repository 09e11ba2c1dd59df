/-
# Which calls, arguments and fields carry provenance

Calls are judged by name and descriptor alone.  A method that returns a `byte` or a `char`, or an
`int` out of something that reads or decodes, is taken to hand out one unit of data whose origin
is worth following.
-/
import Provenance.Code.Insn
import Provenance.Store.Calls

namespace Provenance.Carrier

def systemClass : String := "java/lang/System"

/-- The descriptor of the bulk copy between arrays. -/
def arrayCopyDescriptor : String := "(Ljava/lang/Object;ILjava/lang/Object;II)V"

def nameContains (part name : String) : Bool := Text.contains part.toList name.toList
def nameStarts (part name : String) : Bool := part.toList.isPrefixOf name.toList

/-- Whether the result of a call comes back with a point in a call record. -/
def carriesResult (owner name : String) (desc : MethodDesc) : Bool :=
  match desc.ret with
  | .byte | .char =>
    !(name = "coder" || name = "getCoder" || (owner = Ty.stringClass && name = "charAt"))
  | .int =>
    ((nameContains "read" name || nameContains "Read" name) && !desc.mentionsBuffer) ||
      nameStarts "decode" name || nameContains "codePoint" name || nameContains "CodePoint" name
  | _ => false

/-- Whether a method by its name writes out its arguments. -/
def writesArguments (name : String) : Bool :=
  nameContains "write" name || nameContains "Write" name || nameContains "print" name ||
    nameStarts "encode" name

/-- Whether an argument of a type is followed. -/
def carriesArgument (name : String) (t : Ty) : Bool :=
  match t with
  | .byte | .char | .short => true
  | .int => writesArguments name
  | _ => false

/-- Which arguments of a call come with a point, if any do.  Constructors and calls with more
arguments than a record has slots have none. -/
def carriedArguments? (name : String) (desc : MethodDesc) : Option (List Bool) :=
  if name = "<init>" || Store.maxArgSlots < desc.params.length then none
  else
    let args := desc.params.map (carriesArgument name)
    if args.any id then some args else none

/-- Calls whose result is the unit of data that they are given. -/
def isPassThrough (m : MethodRef) : Bool :=
  m.owner = "java/lang/Byte" && m.name = "toUnsignedInt" && m.desc.descriptor = "(B)I"

/-- The bulk copy between arrays. -/
def isArrayCopy (m : MethodRef) : Bool :=
  m.owner = systemClass && m.name = "arraycopy" && m.desc.descriptor = arrayCopyDescriptor

/-- The type of the array that a call clones, if its elements are followed. -/
def clonedArray? (m : MethodRef) : Option Ty :=
  if m.name = "clone" && m.desc.params.isEmpty && nameStarts "[" m.owner then
    match Ty.parse m.owner with
    | .ok (.array elem) => if elem.isTrackedElement then some (.array elem) else none
    | _ => none
  else none

/-- Comparisons inside the core library keep their meaning. -/
def keepsIdentity (owner : String) : Bool := nameStarts "java/lang/" owner

/-- The call that reads one element out of a string. -/
def isCharAt (m : MethodRef) : Bool :=
  m.owner = Ty.stringClass && m.name = "charAt" && m.desc.descriptor = "(I)C"

/-- Fields whose values are followed. -/
def carriesField (f : FieldRef) : Bool :=
  f.ty.isTrackedScalar && !(f.owner = Ty.stringClass && f.name = "coder")

end Provenance.Carrier
