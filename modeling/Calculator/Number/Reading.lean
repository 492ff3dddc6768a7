import Calculator.Number.Decimal
import Calculator.Text.Digits

/-!
# Reading numbers

The written form of a number: an optional sign, then digits with an optional point and an
optional exponent, or one of the words for infinity and NaN in any letter case. At least one
digit stands before or after the point. Nothing else is read, no blank either.
-/

namespace Calculator

def Decimal.exponent? : Text → Option Int
  | [] => some 0
  | 'e' :: rest => Text.integer? rest
  | 'E' :: rest => Text.integer? rest
  | _ => none

def Decimal.ofText? (text : Text) : Option Decimal :=
  let whole := Text.leadingDigits text
  let (fraction, tail) :=
    match Text.afterDigits text with
    | '.' :: rest => (Text.leadingDigits rest, Text.afterDigits rest)
    | rest => ([], rest)
  if whole = [] ∧ fraction = [] then none
  else (exponent? tail).map fun e => ⟨Text.ofDigits (whole ++ fraction), e - fraction.length⟩

namespace Number

def ofWord? (text : Text) : Option Number :=
  let word := text.map Char.toLower
  if word = "inf".toList ∨ word = "infinity".toList then some (signed false .infinity)
  else if word = "nan".toList then some nan
  else none

def ofUnsigned? (text : Text) : Option Number :=
  ofWord? text <|> (Decimal.ofText? text).map fun d => signed false d.nearest

def ofText? : Text → Option Number
  | '+' :: rest => ofUnsigned? rest
  | '-' :: rest => (ofUnsigned? rest).map negate
  | text => ofUnsigned? text

end Number

end Calculator
