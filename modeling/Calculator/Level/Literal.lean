import Calculator.Number.Reading

/-!
# Literals

A literal is followed through a text by byte positions, without looking at the text: its
sign, the span of the characters after the sign, and how many of them are digits. Each of
these characters takes one byte. The value is read from the span once it is complete.
-/

namespace Calculator

/-- The report on a text that has not the form it should have. It carries the whole text. -/
structure Malformed where
  text : Text
  deriving DecidableEq, Repr

def Malformed.message (report : Malformed) : Text :=
  "Syntax error in expression '".toList ++ report.text ++ "'.".toList

structure Literal where
  negative : Bool
  start : Nat
  stop : Nat
  digits : Nat
  deriving DecidableEq, Repr

namespace Literal

def startAt (position : Nat) : Literal := ⟨false, position, position, 0⟩

def sign (literal : Literal) (negative : Bool) (position : Nat) : Literal :=
  { literal with negative := negative, start := position + 1, stop := position + 1 }

def digit (literal : Literal) (position : Nat) : Literal :=
  { literal with stop := position + 1, digits := literal.digits + 1 }

def point (literal : Literal) (position : Nat) : Literal :=
  { literal with stop := position + 1 }

def hasDigits (literal : Literal) : Bool := 0 < literal.digits

def value (literal : Literal) (text : Text) : Except Malformed Number :=
  if literal.hasDigits then
    match (Text.span? literal.start literal.stop text).bind Number.ofText? with
    | some x => .ok (if literal.negative then x.negate else x)
    | none => .error ⟨text⟩
  else .error ⟨text⟩

end Literal

end Calculator
