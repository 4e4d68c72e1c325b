import ProtoScript.CommandLine
/-!
# The program

The command line on the real files and streams.
-/

namespace ProtoScript.CommandLine

def ReadFault.ofError : IO.Error → ReadFault
  | .noFileOrDirectory .. => .absent
  | .permissionDenied .. => .forbidden
  | .inappropriateType _ code _ => if code = 21 then .isDirectory else .notDirectory
  | .invalidArgument .. => .nameTooLong
  | e => .other (toString e)

def readFile (name : String) : IO (Except ReadFault String) := do
  try
    match String.fromUTF8? (← IO.FS.readBinFile name) with
    | some content => return .ok content
    | none => return .error .notText
  catch e => return .error (.ofError e)

def write (t : Transcript) : IO UInt32 := do
  IO.print t.output
  IO.eprint t.errors
  return UInt32.ofNat t.exitCode

partial def readLines (input output : IO.FS.Stream) (m : Machine) : IO Unit := do
  output.putStr prompt
  output.flush
  let line ← input.getLine
  if line.isEmpty then output.putStr "\n"
  else
    let (written, errors, m) := runLine m line
    output.putStr written
    IO.eprint errors
    readLines input output m

end ProtoScript.CommandLine

open ProtoScript ProtoScript.CommandLine

def main (arguments : List String) : IO UInt32 := do
  match Options.ofArguments arguments with
  | .error e => write ⟨"", e.message ++ "\n", 2⟩
  | .ok options =>
    let m := Machine.initial options.settings
    match options.code, options.file with
    | some code, _ => write (runText m code)
    | none, some name => write (runFile m name (← readFile name))
    | none, none =>
      IO.print greeting
      readLines (← IO.getStdin) (← IO.getStdout) m
      return 0
