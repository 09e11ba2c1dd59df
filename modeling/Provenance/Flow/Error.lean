/-
# What analysis and weaving refuse
-/
import Provenance.Code.Signature
import Provenance.Store.Tracker

namespace Provenance

/-- What is wrong with a filter rule. -/
inductive RuleFault where
  | missingSign
  | innerStar
  deriving DecidableEq, Repr

def RuleFault.message : RuleFault → String
  | missingSign => "must start with '+' or '-'"
  | innerStar => "'*' is only allowed at the end"

/-- What is wrong with a configuration. -/
inductive ConfigFault where
  /-- The text is no configuration record. -/
  | unreadable
  | noIterations
  | unknownOrder (name : String)
  deriving DecidableEq, Repr

def ConfigFault.message : ConfigFault → String
  | unreadable => "unreadable configuration"
  | noIterations => "max_iterations must be positive"
  | unknownOrder name => "unknown solver order '" ++ name ++ "'"

/-- Why an instruction cannot be handled. -/
inductive Obstacle where
  /-- The method holds hooks. -/
  | alreadyWoven
  /-- Code was asked for at an instruction that no frame reaches. -/
  | noFrame
  /-- The point of a value was asked for before its code was planned. -/
  | notTracked
  /-- A merged value has a member that no instruction makes. -/
  | noCreationSite
  | depthExceeded (required declared : Nat)
  deriving DecidableEq, Repr

def Obstacle.message : Obstacle → String
  | alreadyWoven => "method is already instrumented"
  | noFrame => "no frame for unreachable instruction"
  | notTracked => "value was not tracked"
  | noCreationSite => "merge member without creation site"
  | depthExceeded required declared =>
    "woven code needs stack depth " ++ toString required ++ " but reports " ++ toString declared

inductive WeaveError where
  | invalidDescriptor (descriptor : String) (fault : DescriptorFault)
  | invalidFilterRule (rule rules : String) (fault : RuleFault)
  | invalidConfig (fault : ConfigFault)
  | stackUnderflow (insn : Nat)
  | stackHeightMismatch (insn expected found : Nat)
  | invalidLocal (insn index maxLocals : Nat)
  | unknownLabel (insn label : Nat)
  | duplicateLabel (insn label : Nat)
  | fallsOffEnd (insn : Nat)
  | unsupported (insn : Nat) (obstacle : Obstacle)
  | noConvergence (iterations : Nat)
  | constants (error : StoreError)
  deriving DecidableEq, Repr

/-- The kind of an error, by which callers tell errors apart. -/
def WeaveError.kind : WeaveError → String
  | invalidDescriptor _ _ => "InvalidDescriptor"
  | invalidFilterRule _ _ _ => "InvalidFilterRule"
  | invalidConfig _ => "InvalidConfig"
  | stackUnderflow _ => "StackUnderflow"
  | stackHeightMismatch _ _ _ => "StackHeightMismatch"
  | invalidLocal _ _ _ => "InvalidLocal"
  | unknownLabel _ _ => "UnknownLabel"
  | duplicateLabel _ _ => "DuplicateLabel"
  | fallsOffEnd _ => "FallsOffEnd"
  | unsupported _ _ => "Unsupported"
  | noConvergence _ => "NoConvergence"
  | constants _ => "Constants"

def WeaveError.message : WeaveError → String
  | invalidDescriptor descriptor fault =>
    "invalid descriptor '" ++ descriptor ++ "': " ++ fault.message
  | invalidFilterRule rule rules fault =>
    "invalid filter rule '" ++ rule ++ "' in '" ++ rules ++ "': " ++ fault.message
  | invalidConfig fault => "invalid configuration: " ++ fault.message
  | stackUnderflow insn => "stack underflow at instruction " ++ toString insn
  | stackHeightMismatch insn expected found =>
    "stack height mismatch at instruction " ++ toString insn ++ ": " ++
    toString expected ++ " vs " ++
      toString found
  | invalidLocal insn index maxLocals =>
    "local " ++ toString index ++ " out of range at instruction " ++ toString insn ++
      " (max locals " ++ toString maxLocals ++ ")"
  | unknownLabel insn label =>
    "unknown label L" ++ toString label ++ " referenced at instruction " ++ toString insn
  | duplicateLabel insn label =>
    "duplicate label L" ++ toString label ++ " at instruction " ++ toString insn
  | fallsOffEnd insn =>
    "execution falls off the end of the method after instruction " ++ toString insn
  | unsupported insn obstacle =>
    "unsupported instruction at " ++ toString insn ++ ": " ++ obstacle.message
  | noConvergence iterations =>
    "analysis did not converge within " ++ toString iterations ++ " iterations"
  | constants error => "constant table error: " ++ error.message

/-- A method descriptor of a text, with the fault as an error. -/
def parseMethodDesc (text : String) : Except WeaveError MethodDesc :=
  match MethodDesc.parse text with
  | .ok d => .ok d
  | .error fault => .error (.invalidDescriptor text fault)

/-- A type of a text, with the fault as an error. -/
def parseTy (text : String) : Except WeaveError Ty :=
  match Ty.parse text with
  | .ok t => .ok t
  | .error fault => .error (.invalidDescriptor text fault)

end Provenance
