import Calculator.Number.Shortest
import Calculator.Settings
import Calculator.Text.Blank

/-!
# The log

A log keeps the messages that are within its detail, each as its cause; a message is worded
when it is shown.
-/

namespace Calculator

inductive Severity where
  | error
  | warn
  | info
  | debug
  | trace
  deriving DecidableEq, Repr

namespace Severity

def label : Severity → Text
  | error => "ERROR".toList
  | warn => "WARN".toList
  | info => "INFO".toList
  | debug => "DEBUG".toList
  | trace => "TRACE".toList

def detail : Severity → Nat
  | error | warn => 0
  | info => 1
  | debug => 2
  | trace => 3

end Severity

inductive Message where
  | limitReached (limit : Nat)
  | splitting (expression : Text) (operator : Operator)
  | literal (expression : Text) (value : Number)
  | unwrapping (inner : Text)
  | scriptFinished (failures : Nat)
  | starting (settings : Settings)
  | editorFailed (reason : Text)
  deriving DecidableEq, Repr

namespace Message

def severity : Message → Severity
  | editorFailed _ => .error
  | limitReached _ => .warn
  | splitting .. | unwrapping _ | starting _ => .debug
  | literal .. => .trace
  | scriptFinished _ => .info

def source : Message → Text
  | limitReached _ | splitting .. | literal .. | unwrapping _ =>
    "mathparse::interpreter::evaluator::core".toList
  | scriptFinished _ => "mathparse::repl".toList
  | starting _ | editorFailed _ => "mathparse".toList

def associativityName : Associativity → Text
  | .right => "RightToLeft".toList
  | .left => "LeftToRight".toList

def wording : Message → Text
  | limitReached limit => "nesting limit of ".toList ++ Text.digits limit ++ " reached".toList
  | splitting expression op =>
    "splitting '".toList ++ expression ++ "' at '".toList ++ [op.symbol, '\'']
  | literal expression value =>
    "literal '".toList ++ Text.trim expression ++ "' = ".toList ++ value.text
  | unwrapping inner => "unwrapping group '".toList ++ inner ++ ['\'']
  | scriptFinished failures =>
    "script finished with ".toList ++ Text.digits failures ++ " failed line(s)".toList
  | starting settings =>
    "starting with Evaluator \x7b max_depth: ".toList ++ Text.digits settings.maxDepth ++
      ", grouping: ".toList ++ associativityName settings.associativity ++ " \x7d".toList
  | editorFailed reason => "line editor failed: ".toList ++ reason

def line (message : Message) : Text :=
  message.severity.label ++ ' ' :: message.source ++ ' ' :: message.wording

end Message

structure Log where
  detail : Nat
  messages : Array Message := #[]
  deriving DecidableEq, Repr

namespace Log

def add (log : Log) (message : Message) : Log :=
  if message.severity.detail ≤ log.detail then
    { log with messages := log.messages.push message }
  else log

@[simp] theorem detail_add (log : Log) (message : Message) :
    (log.add message).detail = log.detail := by
  unfold add
  split <;> rfl

end Log

end Calculator
