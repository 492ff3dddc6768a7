import Calculator.Number

/-!
# Operators

The five binary operators, how strongly each binds, and which of two operators of one level
is applied last.
-/

namespace Calculator

inductive Operator where
  | add
  | sub
  | mul
  | div
  | pow
  deriving DecidableEq, Repr

namespace Operator

def symbol : Operator → Char
  | add => '+'
  | sub => '-'
  | mul => '*'
  | div => '/'
  | pow => '^'

def ofChar? : Char → Option Operator
  | '+' => some add
  | '-' => some sub
  | '*' => some mul
  | '/' => some div
  | '^' => some pow
  | _ => none

@[simp] theorem ofChar?_symbol (op : Operator) : ofChar? op.symbol = some op := by
  cases op <;> rfl

theorem ofChar?_eq_some_iff {c : Char} {op : Operator} : ofChar? c = some op ↔ c = op.symbol := by
  refine ⟨fun h => ?_, fun h => h ▸ ofChar?_symbol op⟩
  unfold ofChar? at h
  split at h
  case h_6 => contradiction
  all_goals exact Option.some.inj h ▸ rfl

def strength : Operator → Nat
  | add | sub => 1
  | mul | div => 2
  | pow => 3

def apply : Operator → Number → Number → Number
  | add => Number.onFloats (· + ·)
  | sub => Number.onFloats (· - ·)
  | mul => Number.onFloats (· * ·)
  | div => Number.onFloats (· / ·)
  | pow => Number.onFloats Float.pow

end Operator

/-- The side on which operators of equal strength associate, powers like the others: 8-3-2
is 8-(3-2) on the right and (8-3)-2 on the left. -/
inductive Associativity where
  | right
  | left
  deriving DecidableEq, Repr

def Associativity.prefersLater (assoc : Associativity) (later earlier : Operator) : Bool :=
  match assoc with
  | right => later.strength < earlier.strength
  | left => later.strength ≤ earlier.strength

end Calculator
