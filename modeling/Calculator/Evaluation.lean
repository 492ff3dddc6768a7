import Calculator.Level
import Calculator.Step
import Calculator.Trail

/-!
# Evaluation

A text is evaluated level by level: a level with operators is cut in two, and the operator
is applied to the values of the two sides, the left one first. Each step that is completed
goes to the sink as one line. The first failure ends the evaluation.
-/

namespace Calculator

inductive Failure where
  | malformed (report : Malformed)
  | tooDeep (limit : Nat)
  | stepRefused (cause : WriteError)
  deriving DecidableEq, Repr

def Failure.message : Failure → Text
  | malformed report => report.message
  | tooDeep limit =>
    "Expression is nested too deeply (limit is ".toList ++ Text.digits limit ++
      " levels).".toList
  | stepRefused cause => "Failed to write trace output: ".toList ++ cause.message ++ ['.']

abbrev EvalM (σ : Type) := Act Failure σ

variable {σ : Type}

def record (sink : Option (Sink σ)) (step : Step) : EvalM σ Unit :=
  match sink with
  | none => pure ()
  | some sink => send sink .stepRefused step.line

def applyOperator (sink : Option (Sink σ)) (op : Operator) (lhs rhs : Number) :
    EvalM σ Number := do
  let step := Step.ofOperands op lhs rhs
  record sink step
  pure step.result

/-- Evaluates a text that may have a number of further levels. None left is found before the
text is looked at. -/
def evaluateWithin (settings : Settings) (sink : Option (Sink σ)) : Nat → Text → EvalM σ Number
  | 0, _ => do
    note (.limitReached settings.maxDepth)
    throw (.tooDeep settings.maxDepth)
  | levels + 1, text => do
    match Level.ofText settings.associativity text with
    | .error report => throw (.malformed report)
    | .ok (.binary lhs op rhs) =>
      note (.splitting text op)
      let left ← evaluateWithin settings sink levels lhs
      let right ← evaluateWithin settings sink levels rhs
      applyOperator sink op left right
    | .ok (.literal value) =>
      note (.literal text value)
      pure value
    | .ok (.group inner) =>
      note (.unwrapping inner)
      evaluateWithin settings sink levels inner

def evaluate (settings : Settings) (sink : Option (Sink σ)) (text : Text) : EvalM σ Number :=
  evaluateWithin settings sink (settings.maxDepth + 1) text

end Calculator
