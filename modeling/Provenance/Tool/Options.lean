/-
# The command line

Options have a long name, most also a letter.  Letters may stand together behind one dash; a value
follows its option as the next word, behind an equals sign, or right behind the letter.  After
two dashes only files follow.
-/
namespace Provenance

/-- An option of a command. -/
structure OptionForm where
  long : String
  letter : Option Char
  takesValue : Bool
  repeatable : Bool
  deriving DecidableEq, Repr

/-- One thing that the command line says. -/
inductive Word where
  | flag (long : String)
  | value (long : String) (text : String)
  | file (text : String)
  deriving DecidableEq, Repr

structure WeaveOptions where
  input : String
  config : Option String
  output : Option String
  report : Bool
  quiet : Bool
  deriving DecidableEq, Repr

structure RunOptions where
  input : String
  method : String
  desc : String
  args : List String
  config : Option String
  noWeave : Bool
  deriving DecidableEq, Repr

inductive Command where
  | weave (o : WeaveOptions)
  | run (o : RunOptions)
  deriving DecidableEq, Repr

structure CommandLine where
  /-- Whether everything is to be told on the error stream, not only warnings. -/
  verbose : Bool
  command : Command
  deriving DecidableEq, Repr

namespace CommandLine

def verboseForm : OptionForm := ⟨"verbose", some 'v', false, false⟩
def configForm : OptionForm := ⟨"config", some 'c', true, false⟩

def weaveForms : List OptionForm :=
  [verboseForm, configForm, ⟨"output", some 'o', true, false⟩, ⟨"report", some 'r', false, false⟩,
    ⟨"quiet", some 'q', false, false⟩]

def runForms : List OptionForm :=
  [verboseForm, configForm, ⟨"method", some 'm', true, false⟩, ⟨"desc", some 'd', true, false⟩,
    ⟨"arg", some 'a', true, true⟩, ⟨"no-weave", none, false, false⟩]

/-! ## 1. Words -/

/-- The words in letters behind one dash, and the option that still wants a value. -/
def letters? (forms : List OptionForm) : List Char → Option (List Word × Option String)
  | [] => some ([], none)
  | c :: rest =>
    match forms.find? fun f => f.letter = some c with
    | none => none
    | some f =>
      if f.takesValue then
        match rest with
        | [] => some ([], some f.long)
        | '=' :: text => some ([.value f.long (String.ofList text)], none)
        | text => some ([.value f.long (String.ofList text)], none)
      else
        match letters? forms rest with
        | none => none
        | some (words, wanting) => some (.flag f.long :: words, wanting)

/-- The words in a long option without its dashes, and the option that still wants a value. -/
def long? (forms : List OptionForm) (cs : List Char) : Option (List Word × Option String) :=
  let name := String.ofList (cs.takeWhile (· ≠ '='))
  match forms.find? fun f => f.long = name with
  | none => none
  | some f =>
    match cs.dropWhile (· ≠ '=') with
    | [] => if f.takesValue then some ([], some name) else some ([.flag name], none)
    | _ :: text =>
      if f.takesValue then some ([.value name (String.ofList text)], none) else none

/-- Reads the words of a command; `wanting` is the option whose value comes next. -/
def words? (forms : List OptionForm) : Option String → List String → Option (List Word)
  | none, [] => some []
  | some _, [] => none
  | some long, text :: rest =>
    match text.toList with
    | '-' :: _ :: _ => none
    | _ => (words? forms none rest).map (.value long text :: ·)
  | none, text :: rest =>
    match text.toList with
    | ['-', '-'] => some (rest.map .file)
    | '-' :: '-' :: cs => do
      let (found, wanting) ← long? forms cs
      (words? forms wanting rest).map (found ++ ·)
    | '-' :: c :: cs => do
      let (found, wanting) ← letters? forms (c :: cs)
      (words? forms wanting rest).map (found ++ ·)
    | _ => (words? forms none rest).map (.file text :: ·)

/-! ## 2. Commands -/

def valuesOf (long : String) (words : List Word) : List String :=
  words.filterMap fun
    | .value l text => if l = long then some text else none
    | _ => none

def hasFlag (long : String) (words : List Word) : Bool := words.contains (.flag long)

/-- How often an option occurs. -/
def occurrences (long : String) (words : List Word) : Nat :=
  words.countP fun
    | .flag l | .value l _ => l = long
    | .file _ => false

/-- Whether no option occurs twice that must not. -/
def respectsForms (forms : List OptionForm) (words : List Word) : Bool :=
  forms.all fun f => f.repeatable || occurrences f.long words ≤ 1

/-- The one file named, whose name must not be empty. -/
def file? (words : List Word) : Option String :=
  match words.filterMap fun | .file text => some text | _ => none with
  | [text] => if text.isEmpty then none else some text
  | _ => none

/-- The value of an option that names a file. -/
def path? (long : String) (words : List Word) : Option (Option String) :=
  match (valuesOf long words).head? with
  | none => some none
  | some text => if text.isEmpty then none else some (some text)

def weave? (words : List Word) : Option Command := do
  some (.weave ⟨← file? words, ← path? "config" words, ← path? "output" words,
    hasFlag "report" words, hasFlag "quiet" words⟩)

def run? (words : List Word) : Option Command := do
  some (.run ⟨← file? words, ← (valuesOf "method" words).head?, ← (valuesOf "desc" words).head?,
    valuesOf "arg" words, ← path? "config" words, hasFlag "no-weave" words⟩)

/-- Reads what follows the name of a command. -/
def read? (forms : List OptionForm) (command? : List Word → Option Command)
    (args : List String) : Option CommandLine := do
  let words ← words? forms none args
  if respectsForms forms words then some ⟨hasFlag "verbose" words, ← command? words⟩ else none

/-- Reads a command line that begins with the name of the command. -/
def named? : List String → Option CommandLine
  | "weave" :: args => read? weaveForms weave? args
  | "run" :: args => read? runForms run? args
  | _ => none

/-- What a command line asks for, if it follows the rules. -/
def parse? : List String → Option CommandLine
  | "-v" :: rest | "--verbose" :: rest => (named? rest).map fun l => { l with verbose := true }
  | words => named? words

end CommandLine

end Provenance
