import Calculator.Evaluation
import Calculator.Output
import Calculator.Text.Lines

/-!
# Sessions

A session evaluates lines with the same settings. For each line it writes the steps, if it
shows them, then one line with the result or the failure, all to one sink. A step that
cannot be written fails the evaluation, and the session answers with that failure; an answer
that cannot be written ends the call.
-/

namespace Calculator

structure Session where
  settings : Settings
  trace : Bool
  deriving DecidableEq, Repr

/-- What a line that was typed asks for next. -/
inductive Wish where
  | another
  | stop
  deriving DecidableEq, Repr

abbrev SessionM (σ : Type) := Act WriteError σ

namespace Session

variable {σ : Type}

def resultLine (line : Text) (value : Number) : Text :=
  Text.trim line ++ " = ".toList ++ value.text

def failureLine (failure : Failure) : Text := "Error: ".toList ++ failure.message

def stepSink (session : Session) (sink : Sink σ) : Option (Sink σ) :=
  if session.trace then some sink else none

def writeLine (sink : Sink σ) (line : Text) : SessionM σ Unit := send sink id line

/-- Evaluates a line and writes what came of it; tells whether it has a value. -/
def answer (session : Session) (sink : Sink σ) (line : Text) : SessionM σ Bool := do
  match ← attempt (evaluate session.settings (session.stepSink sink) line) with
  | .ok value =>
    writeLine sink (resultLine line value)
    pure true
  | .error failure =>
    writeLine sink (failureLine failure)
    pure false

def interact (session : Session) (sink : Sink σ) (line : Text) : SessionM σ Wish := do
  if Text.isAllBlank line then
    pure .stop
  else
    let _ ← session.answer sink line
    pure .another

/-- Answers lines until one asks to stop; tells what the last one asked for. -/
def converse (session : Session) (sink : Sink σ) : List Text → SessionM σ Wish
  | [] => pure .another
  | line :: rest => do
    match ← session.interact sink line with
    | .stop => pure .stop
    | .another => session.converse sink rest

def isSkipped (line : Text) : Bool :=
  match Text.trim line with
  | [] => true
  | c :: _ => c = '#'

def statements (script : Text) : List Text :=
  (Text.lines script).filter fun line => !isSkipped line

/-- Answers every statement of a script; gives the number of those without a value. -/
def execute (session : Session) (sink : Sink σ) (script : Text) : SessionM σ Nat := do
  let outcomes ← (statements script).mapM (session.answer sink)
  let failures := outcomes.count false
  note (.scriptFinished failures)
  pure failures

end Session

end Calculator
