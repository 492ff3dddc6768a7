import Calculator.Number.Shortest
import Calculator.Operator

/-!
# Steps

A step is one operation on two numbers, with its result. It is shown as one line.
-/

namespace Calculator

structure Step where
  lhs : Number
  operator : Operator
  rhs : Number
  result : Number
  deriving DecidableEq, Repr

namespace Step

def ofOperands (op : Operator) (lhs rhs : Number) : Step := ⟨lhs, op, rhs, op.apply lhs rhs⟩

def line (step : Step) : Text :=
  '[' :: step.lhs.text ++ "] <".toList ++ step.operator.symbol :: "> [".toList ++ step.rhs.text ++
    "] = [".toList ++ step.result.text ++ [']']

end Step

end Calculator
