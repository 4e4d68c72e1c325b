import ProtoScript.Machine
/-!
# Options of the command line

What the arguments of the program ask for.
-/

namespace ProtoScript.CommandLine

structure Options where
  file : Option String := none
  code : Option String := none
  noHarness : Bool := false
  maxDepth : Option Nat := none
  strict : Bool := false
  verbosity : Nat := 0
  deriving DecidableEq, Inhabited, Repr

inductive UsageError where
  | unexpected (argument : String)
  | missingValue (option : String)
  | invalidValue (option value : String)
  | repeated (option : String)
  deriving DecidableEq, Inhabited, Repr

def UsageError.message : UsageError → String
  | unexpected argument => "error: unexpected argument '" ++ argument ++ "' found"
  | missingValue option => "error: a value is required for '" ++ option ++ "' but none was supplied"
  | invalidValue option value =>
    "error: invalid value '" ++ value ++ "' for '" ++ option ++ "'"
  | repeated option =>
    "error: the argument '" ++ option ++ "' cannot be used multiple times"

inductive ValueOption where
  | eval
  | maxDepth
  deriving DecidableEq, Inhabited, Repr

def ValueOption.spelling : ValueOption → String
  | eval => "--eval <EVAL>"
  | maxDepth => "--max-depth <N>"

/-- The natural number below `2 ^ 64` that a text spells; a plus sign may stand in front. -/
def machineNatural? (text : String) : Option Nat :=
  let digits :=
    match text.toList with
    | '+' :: rest => rest
    | cs => cs
  if digits.isEmpty || !digits.all Char.isDigit then none
  else
    let n := Number.naturalOfDigits digits
    if n < 18446744073709551616 then some n else none

structure Progress where
  options : Options := {}
  pending : Option ValueOption := none
  filesOnly : Bool := false

namespace Progress

def setValue (p : Progress) (option : ValueOption) (value : String) :
    Except UsageError Progress :=
  match option with
  | .eval =>
    if p.options.code.isSome then .error (.repeated option.spelling)
    else .ok { p with options := { p.options with code := some value }, pending := none }
  | .maxDepth =>
    match machineNatural? value with
    | none => .error (.invalidValue option.spelling value)
    | some n =>
      if p.options.maxDepth.isSome then .error (.repeated option.spelling)
      else .ok { p with options := { p.options with maxDepth := some n }, pending := none }

def setFile (p : Progress) (name : String) : Except UsageError Progress :=
  if p.options.file.isSome then .error (.unexpected name)
  else if name.isEmpty then .error (.invalidValue "[FILE]" name)
  else .ok { p with options := { p.options with file := some name } }

/-- Reads an option with two hyphens, its name and the value behind an equals sign. -/
def long (p : Progress) (argument name : String) (value : Option String) :
    Except UsageError Progress :=
  let valued (option : ValueOption) : Except UsageError Progress :=
    match value with
    | some value => p.setValue option value
    | none => .ok { p with pending := some option }
  let flag (seen : Bool) (options : Options) : Except UsageError Progress :=
    if value.isSome then .error (.unexpected argument)
    else if seen then .error (.repeated argument)
    else .ok { p with options }
  if name = "eval" then valued .eval
  else if name = "max-depth" then valued .maxDepth
  else if name = "strict" then flag p.options.strict { p.options with strict := true }
  else if name = "no-harness" then flag p.options.noHarness { p.options with noHarness := true }
  else if name = "verbose" then
    flag false { p.options with verbosity := p.options.verbosity + 1 }
  else .error (.unexpected argument)

/-- Reads letters behind one hyphen.  Behind the letter of an option with a value comes the
value. -/
def short (p : Progress) (argument : String) : List Char → Except UsageError Progress
  | [] => .ok p
  | 'v' :: rest =>
    let options := { p.options with verbosity := p.options.verbosity + 1 }
    short { p with options } argument rest
  | 'e' :: [] => .ok { p with pending := some .eval }
  | 'e' :: '=' :: rest => p.setValue .eval (String.ofList rest)
  | 'e' :: rest => p.setValue .eval (String.ofList rest)
  | _ => .error (.unexpected argument)

def read (p : Progress) (argument : String) : Except UsageError Progress :=
  let cs := argument.toList
  match p.pending with
  | some option =>
    match cs with
    | '-' :: _ :: _ => .error (.missingValue option.spelling)
    | _ => p.setValue option argument
  | none =>
    if p.filesOnly then p.setFile argument
    else
      match cs with
      | ['-', '-'] => .ok { p with filesOnly := true }
      | '-' :: '-' :: rest =>
        let name := String.ofList (rest.takeWhile (· != '='))
        match rest.dropWhile (· != '=') with
        | _ :: value => p.long argument name (some (String.ofList value))
        | [] => p.long argument name none
      | '-' :: letter :: rest => p.short argument (letter :: rest)
      | _ => p.setFile argument

end Progress

def Options.ofArguments (arguments : List String) : Except UsageError Options := do
  let p ← arguments.foldlM Progress.read {}
  match p.pending with
  | some option => throw (.missingValue option.spelling)
  | none => return p.options

def Options.settings (o : Options) : Settings where
  maxCallDepth := o.maxDepth.getD 400
  harness := !o.noHarness
  strict := o.strict

end ProtoScript.CommandLine
