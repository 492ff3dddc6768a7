import Calculator.Level.Progress

/-!
# Levels

A level with operators is cut at its pivot, and its two sides are levels again. A level
without operators is a literal or a group.
-/

namespace Calculator

inductive Level where
  | binary (lhs : Text) (operator : Operator) (rhs : Text)
  | literal (value : Number)
  | group (inner : Text)
  deriving DecidableEq, Repr

def Progress.level (p : Progress) (text : Text) : Except Malformed Level :=
  if p.mayEnd then
    match p.pivot, p.operand with
    | some pivot, _ =>
      match Text.cut? pivot.position text with
      | some (lhs, _ :: rhs) => .ok (.binary lhs pivot.operator rhs)
      | _ => .error ⟨text⟩
    | none, some (.literal span) => (span.value text).map .literal
    | none, some .group =>
      match Text.unwrap? text with
      | some inner => .ok (.group inner)
      | none => .error ⟨text⟩
    | none, none => .error ⟨text⟩
  else .error ⟨text⟩

def Level.ofText (assoc : Associativity) (text : Text) : Except Malformed Level :=
  (Progress.initial.through assoc 0 text).level text

end Calculator
