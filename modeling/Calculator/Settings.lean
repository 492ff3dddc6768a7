import Calculator.Operator

/-!
# Settings of an evaluation
-/

namespace Calculator

def defaultMaxDepth : Nat := 1024

structure Settings where
  /-- How many levels may lie around a level. -/
  maxDepth : Nat := defaultMaxDepth
  associativity : Associativity := .right
  deriving DecidableEq, Repr

end Calculator
