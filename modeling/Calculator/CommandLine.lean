import Calculator.Text.Digits

/-!
# The command line

Arguments are read from left to right. The first one that is refused, or that asks for help
or the version, decides: nothing after it is looked at.
-/

namespace Calculator

structure Options where
  fromFile : Bool := false
  hidesSteps : Bool := false
  leftToRight : Bool := false
  maxDepth : Option Nat := none
  verbosity : Nat := 0
  input : Option Text := none
  deriving DecidableEq, Repr

inductive Ending where
  | help
  | version
  | refused
  deriving DecidableEq, Repr

inductive Flag where
  | file
  | noTrace
  | leftToRight
  | verbose
  | help
  | version
  deriving DecidableEq, Repr

namespace Flag

def ofLetter? : Char → Option Flag
  | 'f' => some file
  | 'v' => some verbose
  | 'h' => some help
  | 'V' => some version
  | _ => none

def name : Flag → Text
  | file => "file".toList
  | noTrace => "no-trace".toList
  | leftToRight => "left-to-right".toList
  | verbose => "verbose".toList
  | help => "help".toList
  | version => "version".toList

def ofName? (text : Text) : Option Flag :=
  [file, noTrace, leftToRight, verbose, help, version].find? fun flag => flag.name = text

end Flag

namespace Options

/-- Only the flag for more detail may be given twice. -/
def setFlag (options : Options) : Flag → Except Ending Options
  | .file => if options.fromFile then throw .refused else pure { options with fromFile := true }
  | .noTrace =>
    if options.hidesSteps then throw .refused else pure { options with hidesSteps := true }
  | .leftToRight =>
    if options.leftToRight then throw .refused else pure { options with leftToRight := true }
  | .verbose => pure { options with verbosity := options.verbosity + 1 }
  | .help => throw .help
  | .version => throw .version

def setLetter (options : Options) (letter : Char) : Except Ending Options :=
  match Flag.ofLetter? letter with
  | some flag => options.setFlag flag
  | none => throw .refused

def depth? (text : Text) : Option Nat :=
  let digits :=
    match text with
    | '+' :: rest => rest
    | _ => text
  (Text.natural? digits).filter (· < Nat.pow 2 64)

def setMaxDepth (options : Options) (value : Text) : Except Ending Options :=
  match options.maxDepth, depth? value with
  | none, some depth => pure { options with maxDepth := some depth }
  | _, _ => throw .refused

def setName (options : Options) (name : Text) : Except Ending Options :=
  if "max-depth=".toList.isPrefixOf name then
    options.setMaxDepth (name.drop "max-depth=".length)
  else
    match Flag.ofName? name with
    | some flag => options.setFlag flag
    | none => throw .refused

def setInput (options : Options) (text : Text) : Except Ending Options :=
  if options.input.isSome then throw .refused else pure { options with input := some text }

def setArgument (options : Options) (argument : Text) : Except Ending Options :=
  match argument with
  | '-' :: '-' :: name => options.setName name
  | '-' :: c :: letters => (c :: letters).foldlM setLetter options
  | _ => options.setInput argument

/-- Reads the arguments. Two hyphens alone end the options; a value after its option may not
begin with a hyphen. -/
def read (options : Options) : List Text → Except Ending Options
  | [] => pure options
  | argument :: rest =>
    if argument = "--".toList then rest.foldlM setInput options
    else if argument = "--max-depth".toList then
      match rest with
      | [] => throw .refused
      | value :: rest => do
        if value.head? = some '-' then throw .refused
        let options ← options.setMaxDepth value
        options.read rest
    else do
      let options ← options.setArgument argument
      options.read rest

end Options

end Calculator
