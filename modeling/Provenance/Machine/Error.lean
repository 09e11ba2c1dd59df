/-
# What makes a run fail

These are failures of the executed program or limits of the machine.  Losing track of where a
value came from is never one of them.
-/
import Provenance.Flow.Error

namespace Provenance

/-- Why a method cannot be run, or not with these arguments. -/
inductive MethodFault where
  | labels (error : WeaveError)
  | argumentCount (expected got : Nat)
  | unknownLabel (label : Nat)
  deriving DecidableEq, Repr

def MethodFault.message : MethodFault → String
  | labels error => error.message
  | argumentCount expected got =>
    "expected " ++ toString expected ++ " arguments, got " ++ toString got
  | unknownLabel label => "unknown label L" ++ toString label

inductive RunError where
  | stackUnderflow (method : String) (pc : Nat)
  | typeMismatch (expected found : String)
  | nullReference (context : String)
  | indexOutOfBounds (index : Int) (length : Nat)
  | negativeArraySize (size : Int)
  | divisionByZero
  | unknownMethod (key : String)
  | invalidMethod (method : String) (fault : MethodFault)
  | invalidLocal (method : String) (index : Nat)
  | fellOffEnd (method : String)
  | callDepthExceeded (limit : Nat)
  | instructionLimit (limit : Nat)
  | native (method reason : String)
  /-- A sum of indices left the words, which stops the program itself. -/
  | overflow
  deriving DecidableEq, Repr

namespace RunError

/-- The kind of an error, by which callers tell errors apart. -/
def kind : RunError → String
  | stackUnderflow _ _ => "StackUnderflow"
  | typeMismatch _ _ => "TypeMismatch"
  | nullReference _ => "NullReference"
  | indexOutOfBounds _ _ => "IndexOutOfBounds"
  | negativeArraySize _ => "NegativeArraySize"
  | divisionByZero => "DivisionByZero"
  | unknownMethod _ => "UnknownMethod"
  | invalidMethod _ _ => "InvalidMethod"
  | invalidLocal _ _ => "InvalidLocal"
  | fellOffEnd _ => "FellOffEnd"
  | callDepthExceeded _ => "CallDepthExceeded"
  | instructionLimit _ => "InstructionLimit"
  | native _ _ => "Native"
  | overflow => "panic"

def message : RunError → String
  | stackUnderflow method pc => "operand stack underflow in " ++ method ++ " at " ++ toString pc
  | typeMismatch expected found => "type mismatch: expected " ++ expected ++ ", found " ++ found
  | nullReference context => "null reference: " ++ context
  | indexOutOfBounds index length =>
    "index " ++ toString index ++ " out of bounds for length " ++ toString length
  | negativeArraySize size => "negative array size " ++ toString size
  | divisionByZero => "division by zero"
  | unknownMethod key => "unknown method " ++ key
  | invalidMethod method fault => "invalid method " ++ method ++ ": " ++ fault.message
  | invalidLocal method index => "local " ++ toString index ++ " out of range in " ++ method
  | fellOffEnd method => "execution fell off the end of " ++ method
  | callDepthExceeded limit => "call depth " ++ toString limit ++ " exceeded"
  | instructionLimit limit => "instruction limit " ++ toString limit ++ " exceeded"
  | native method reason => "native " ++ method ++ " failed: " ++ reason
  | overflow => "index out of range"

/-- Whether the run failed only because it was too long or too deep. -/
def isLimit : RunError → Bool
  | callDepthExceeded _ | instructionLimit _ => true
  | _ => false

end RunError

end Provenance
