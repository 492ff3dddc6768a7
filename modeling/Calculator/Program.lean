import Calculator.CommandLine
import Calculator.Session
import Calculator.Text.Controls

/-!
# The program

What the program does with its arguments, its standard input and the files it can read: an
exit code, the bytes it writes, its complaints and the messages that it shows. How arguments
are read, and what a line editor makes of the standard input, is given to it like the files.
-/

namespace Calculator

inductive FileError where
  | missing
  | notDirectory
  | isDirectory
  | nameTooLong
  | notUtf8
  | other (reason : Text)
  deriving DecidableEq, Repr

def FileError.reason : FileError → Text
  | missing => "No such file or directory (os error 2)".toList
  | notDirectory => "Not a directory (os error 20)".toList
  | isDirectory => "Is a directory (os error 21)".toList
  | nameTooLong => "File name too long (os error 36)".toList
  | notUtf8 => "stream did not contain valid UTF-8".toList
  | other reason => reason

def decodeFile (bytes : ByteArray) : Except FileError Text :=
  match String.fromUTF8? bytes with
  | some text => .ok text.toList
  | none => .error .notUtf8

/-- A message as the program shows it: a terminal finds no orders in it. -/
def Message.shownLine (message : Message) : Text := Text.withoutControls message.line

structure Outcome where
  exitCode : UInt8
  stdout : Array UInt8 := #[]
  complaints : List Text := []
  log : List Message := []
  deriving DecidableEq, Repr

def Outcome.ofTrail (exitCode : UInt8) (complaints : List Text) (trail : Trail Output) : Outcome :=
  { exitCode := exitCode
    stdout := trail.sink.written
    complaints := complaints
    log := trail.log.messages.toList }

/-- A failure of the line editor, or of writing while it is open, is logged. -/
def Outcome.ofEditorFailure (reason : Text) (trail : Trail Output) : Outcome :=
  .ofTrail 1 [] { trail with log := trail.log.add (.editorFailed reason) }

/-- The lines that a line editor returns for a standard input, and its reason if it fails after
them instead of coming to the end. -/
structure TypedLines where
  lines : List Text
  failure : Option Text
  deriving DecidableEq, Repr

def TypedLines.ofText (text : Text) : TypedLines := ⟨Text.lines text, none⟩

namespace Options

def settings (options : Options) : Settings where
  maxDepth := options.maxDepth.getD defaultMaxDepth
  associativity := if options.leftToRight then .left else .right

def session (options : Options) : Session := ⟨options.settings, !options.hidesSteps⟩

def trail (options : Options) : Trail Output :=
  ⟨{}, Log.add ⟨options.verbosity, #[]⟩ (.starting options.settings)⟩

def runScript (options : Options) (script : Text) : Outcome :=
  match options.trail.run (options.session.execute Output.sink script) with
  | (.ok failures, trail) => .ofTrail (if failures = 0 then 0 else 1) [] trail
  | (.error error, trail) =>
    .ofTrail 1 ["Failed to write output: ".toList ++ error.message] trail

/-- Processes lines that were typed, up to the first blank one. A failure of the editor is met
only after all of its lines. -/
def runTyped (options : Options) (typed : TypedLines) : Outcome :=
  match options.trail.run (options.session.converse Output.sink typed.lines) with
  | (.ok .stop, trail) => .ofTrail 0 [] trail
  | (.ok .another, trail) =>
    match typed.failure with
    | none => .ofTrail 0 [] trail
    | some reason => .ofEditorFailure reason trail
  | (.error error, trail) => .ofEditorFailure error.message trail

def refuseFile (options : Options) (path : Text) (error : FileError) : Outcome :=
  .ofTrail 1 ["Failed to read the input file '".toList ++ path ++ "': ".toList ++ error.reason]
    options.trail

def run (options : Options) (readFile : Text → Except FileError ByteArray)
    (readLines : Text → TypedLines) (stdin : Text) : Outcome :=
  match options.input with
  | none => options.runTyped (readLines stdin)
  | some input =>
    if options.fromFile then
      match (readFile input).bind decodeFile with
      | .ok script => options.runScript script
      | .error error => options.refuseFile input error
    else options.runScript input

end Options

def versionText : Text := "mathparse 0.1.0\n".toList

/-- The whole program; none if the arguments are refused. -/
def runProgram (readArguments : List Text → Except Ending Options) (help : Text)
    (readFile : Text → Except FileError ByteArray) (readLines : Text → TypedLines)
    (arguments : List Text) (stdin : Text) : Option Outcome :=
  match readArguments arguments with
  | .error .refused => none
  | .error .help => some { exitCode := 0, stdout := (Text.utf8 help).toArray }
  | .error .version => some { exitCode := 0, stdout := (Text.utf8 versionText).toArray }
  | .ok options => some (options.run readFile readLines stdin)

end Calculator
