import Calculator.Text

/-!
# Blank characters

A character is blank if it has the Unicode property White_Space. Blanks at the two ends of a
text can be cut off, and a pair of parentheses under them.
-/

namespace Calculator

def blankRanges : List (Nat × Nat) :=
  [(0x20, 0x20), (0x09, 0x0D), (0x85, 0x85), (0xA0, 0xA0), (0x1680, 0x1680), (0x2000, 0x200A),
    (0x2028, 0x2029), (0x202F, 0x202F), (0x205F, 0x205F), (0x3000, 0x3000)]

def isBlank (c : Char) : Bool :=
  blankRanges.any fun (first, last) => first ≤ c.toNat && c.toNat ≤ last

theorem isDigit_iff {c : Char} : c.isDigit = true ↔ 48 ≤ c.toNat ∧ c.toNat ≤ 57 := by
  simp only [Char.isDigit, Bool.and_eq_true, decide_eq_true_eq, ge_iff_le,
    UInt32.le_iff_toNat_le]
  rfl

theorem isDigit_eq_false_of_isBlank {c : Char} (h : isBlank c = true) : c.isDigit = false := by
  rw [Bool.eq_false_iff]
  intro hd
  have hd := isDigit_iff.mp hd
  simp only [isBlank, blankRanges, List.any_cons, List.any_nil, Bool.or_eq_true, Bool.and_eq_true,
    decide_eq_true_eq, Bool.false_eq_true, or_false] at h
  omega

namespace Text

def isAllBlank (text : Text) : Bool := text.all isBlank

def trim (text : Text) : Text :=
  ((text.dropWhile isBlank).reverse.dropWhile isBlank).reverse

def unwrap? (text : Text) : Option Text :=
  match text.dropWhile isBlank with
  | '(' :: rest =>
    match rest.reverse.dropWhile isBlank with
    | ')' :: inner => some inner.reverse
    | _ => none
  | _ => none

end Text

end Calculator
