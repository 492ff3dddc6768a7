import Calculator.Program

/-!
# The calculator as a program

Reads the files and the standard input that the program asks for, and shows its outcome.
-/

namespace Calculator

def helpText : Text :=
  "usage: mathparse [-f] [--no-trace] [--left-to-right] [--max-depth N] [-v]... [INPUT]\n".toList

def Outcome.emit (outcome : Outcome) : IO UInt32 := do
  let stdout ← IO.getStdout
  stdout.write ⟨outcome.stdout⟩
  stdout.flush
  for line in outcome.log.map Message.shownLine ++ outcome.complaints do
    IO.eprintln (String.ofList line)
  return outcome.exitCode.toUInt32

def readFile (path : Text) : IO (Except FileError ByteArray) := do
  try
    return .ok (← IO.FS.readBinFile (String.ofList path))
  catch error =>
    match error with
    | .noFileOrDirectory .. => return .error .missing
    | .inappropriateType _ 21 _ => return .error .isDirectory
    | .inappropriateType .. => return .error .notDirectory
    | error => return .error (.other error.toString.toList)

end Calculator

open Calculator in
def main (arguments : List String) : IO UInt32 := do
  let arguments := arguments.map String.toList
  let readArguments := Options.read {}
  let mut contents := .error .missing
  let mut stdin := ""
  -- Only what the options name is read.
  if let .ok options := readArguments arguments then
    match options.input with
    | none => stdin ← (← IO.getStdin).readToEnd
    | some input => if options.fromFile then contents ← readFile input
  match runProgram readArguments helpText (fun _ => contents) .ofText arguments stdin.toList with
  | none =>
    IO.eprint (String.ofList helpText)
    return 2
  | some outcome => outcome.emit
