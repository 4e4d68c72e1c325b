import ProtoScript.CommandLine.Directory
import ProtoScript.CommandLine.Options
import ProtoScript.Session
/-!
# The command line

What the program does with its arguments and its input: it runs a text or a file, or reads
statements line by line and shows their values.
-/

namespace ProtoScript.CommandLine

/-- What a run of the program writes, and its exit code. -/
structure Transcript where
  output : String := ""
  errors : String := ""
  exitCode : Nat := 0
  deriving DecidableEq, Inhabited, Repr

def version : String := "0.1.0"

def greeting : String :=
  "jscore v" ++ version ++ "\nType statements to evaluate. Press Ctrl-D to exit.\n"

def prompt : String := "> "

def exhaustedReport : String := "Out of steps\n"

def runText (m : Machine) (source : String) : Transcript :=
  let (outcome, m) := m.evaluate source
  match outcome with
  | .done (.ok _) => ⟨m.output, "", 0⟩
  | .done (.error e) => ⟨m.output, e.display ++ "\n", e.exitCode⟩
  | .exhausted => ⟨m.output, exhaustedReport, 1⟩

/-- Runs a file, given its content or the fault that keeps it from being read. -/
def runFile (m : Machine) (name : String) : Except ReadFault String → Transcript
  | .ok source => runText m source
  | .error fault => ⟨"", "Error reading " ++ name ++ ": " ++ fault.message ++ "\n", 2⟩

def trim (line : String) : List Char :=
  ((line.toList.dropWhile Text.isWhiteSpace).reverse.dropWhile Text.isWhiteSpace).reverse

def shownValue (m : Machine) (v : Value) : String :=
  if v.isUndefined then "" else m.store.display v ++ "\n"

/-- Evaluates a line; gives what it writes on the standard output and on the standard error, and the
machine for the next line. -/
def runLine (m : Machine) (line : String) : String × String × Machine :=
  let source := trim line
  if source.isEmpty then ("", "", m)
  else
    let (outcome, m) := m.evaluate (String.ofList source)
    let (written, m) := m.takeOutput
    match outcome with
    | .done (.ok v) => (written ++ shownValue m v, "", m)
    | .done (.error e) => (written, e.display ++ "\n", m)
    | .exhausted => (written, exhaustedReport, m)

/-- The lines of a text; a line break at its end begins no further line. -/
def lines (text : String) : List String :=
  let parts := text.splitOn "\n"
  if parts.getLast? = some "" then parts.dropLast else parts

def runLines (m : Machine) (input : List String) : Transcript :=
  let step (state : Transcript × Machine) (line : String) : Transcript × Machine :=
    let (t, m) := state
    let (output, errors, m) := runLine m line
    (⟨t.output ++ output ++ prompt, t.errors ++ errors, 0⟩, m)
  let (t, _) := input.foldl step (⟨greeting ++ prompt, "", 0⟩, m)
  { t with output := t.output ++ "\n" }

def run (arguments : List String) (directory : Directory) (input : String) : Transcript :=
  match Options.ofArguments arguments with
  | .error e => ⟨"", e.message ++ "\n", 2⟩
  | .ok options =>
    let m := Machine.initial options.settings
    match options.code, options.file with
    | some code, _ => runText m code
    | none, some name => runFile m name (directory.read name)
    | none, none => runLines m (lines input)

end ProtoScript.CommandLine
