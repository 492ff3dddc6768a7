import Calculator.Level.Progress

/-!
# What a character does

One equation for each phase in which a character can be met says what `consume` makes of it,
the phases it is handed on to included. `through_append` cuts the pass over a text in two.
-/

namespace Calculator

variable {assoc : Associativity} {position : Nat} {c : Char}

-- ---------------------------------------------------------------------------
-- Kinds of characters
-- ---------------------------------------------------------------------------

theorem isBlank_symbol (op : Operator) : isBlank op.symbol = false := by
  cases op <;> rfl

theorem isDigit_symbol (op : Operator) : op.symbol.isDigit = false := by
  cases op <;> rfl

theorem symbol_ne_open (op : Operator) : op.symbol ≠ '(' := by
  cases op <;> decide

theorem ofChar?_of_isBlank (h : isBlank c = true) : Operator.ofChar? c = none := by
  rw [Option.eq_none_iff_forall_ne_some]
  intro op hop
  rw [Operator.ofChar?_eq_some_iff.mp hop, isBlank_symbol] at h
  contradiction

theorem ne_of_isBlank {x : Char} (h : isBlank c = true) (hx : isBlank x = false) : c ≠ x := by
  rintro rfl
  simp [h] at hx

theorem ne_of_isDigit {x : Char} (h : c.isDigit = true) (hx : x.isDigit = false) : c ≠ x := by
  rintro rfl
  simp [h] at hx

-- ---------------------------------------------------------------------------
-- Operators
-- ---------------------------------------------------------------------------

def Pivot.chosen (assoc : Associativity) (held : Option Pivot) (new : Pivot) : Option Pivot :=
  match held with
  | none => some new
  | some old => if assoc.prefersLater new.operator old.operator then some new else some old

namespace Progress

variable {p next : Progress} {depth : Nat} {pivot : Option Pivot} {operand : Option Operand}
  {span : Literal}

theorem meet_eq (assoc : Associativity) (p : Progress) (position : Nat) (op : Operator) :
    p.meet assoc position op = { p with pivot := Pivot.chosen assoc p.pivot ⟨position, op⟩ } := by
  obtain ⟨phase, depth, pivot, operand⟩ := p
  cases pivot with
  | none => rfl
  | some held =>
    simp only [meet, Pivot.chosen]
    split <;> rfl

/-- What an operator, a blank or anything else does after a complete operand. -/
def leave (p : Progress) (assoc : Associativity) (position : Nat) (c : Char) : Progress :=
  match Operator.ofChar? c with
  | some op => { p with
      phase := .operandDue, pivot := Pivot.chosen assoc p.pivot ⟨position, op⟩ }
  | none => if isBlank c then p.enter .operandDone else p.enter .rejected

theorem leave_symbol (p : Progress) (assoc : Associativity) (position : Nat) (op : Operator) :
    p.leave assoc position op.symbol =
      { p with phase := .operandDue, pivot := Pivot.chosen assoc p.pivot ⟨position, op⟩ } := by
  simp [leave]

theorem leave_of_isBlank (p : Progress) (assoc : Associativity) (position : Nat)
    (h : isBlank c = true) : p.leave assoc position c = p.enter .operandDone := by
  simp [leave, ofChar?_of_isBlank h, h]

-- ---------------------------------------------------------------------------
-- One equation for each phase
-- ---------------------------------------------------------------------------

theorem consume_of_taken (h : react assoc p position c = .taken next) :
    consume assoc p position c = next := by
  rw [consume]
  split <;> simp_all

theorem consume_of_handedOn (next : Progress) (h : react assoc p position c = .handedOn next) :
    consume assoc p position c = consume assoc next position c := by
  rw [consume]
  split <;> simp_all

theorem consume_operator {op : Operator} (h : Operator.ofChar? c = some op) :
    consume assoc ⟨.operator, depth, pivot, operand⟩ position c =
      ⟨.operandDue, depth, Pivot.chosen assoc pivot ⟨position, op⟩, operand⟩ := by
  apply consume_of_taken
  simp [react, takeOperator, h, meet_eq, enter]

theorem consume_operandDue :
    consume assoc ⟨.operandDue, depth, pivot, operand⟩ position c =
      if c = '(' then ⟨.inGroup, depth + 1, pivot, some .group⟩
      else if c = '+' ∨ c = '-' then
        ⟨.wholePart, depth, pivot, some (.literal ⟨c = '-', position + 1, position + 1, 0⟩)⟩
      else if c = '.' then
        ⟨.fractionPart, depth, pivot, some (.literal ⟨false, position, position + 1, 0⟩)⟩
      else if c.isDigit then
        ⟨.wholePart, depth, pivot, some (.literal ⟨false, position, position + 1, 1⟩)⟩
      else if isBlank c then ⟨.operandDue, depth, pivot, operand⟩
      else ⟨.rejected, depth, pivot, operand⟩ := by
  split
  case isTrue h =>
    subst h
    rw [consume_of_handedOn ⟨.inGroup, depth, pivot, operand⟩ (by rfl)]
    exact consume_of_taken rfl
  case isFalse hopen =>
  split
  case isTrue h =>
    rw [consume_of_handedOn ⟨.literalDue, depth, pivot, operand⟩
      (by rcases h with rfl | rfl <;> rfl)]
    apply consume_of_taken
    simp [react, beginLiteral, h, Literal.startAt, Literal.sign]
  case isFalse hsign =>
  split
  case isTrue h =>
    subst h
    rw [consume_of_handedOn ⟨.literalDue, depth, pivot, operand⟩ (by rfl)]
    exact consume_of_taken rfl
  case isFalse hpoint =>
  split
  case isTrue h =>
    rw [consume_of_handedOn ⟨.literalDue, depth, pivot, operand⟩
      (by simp [react, awaitOperand, hopen, beginsLiteral, h, enter])]
    rw [consume_of_handedOn
      ⟨.wholePart, depth, pivot, some (.literal (Literal.startAt position))⟩
      (by simp [react, beginLiteral, hsign, hpoint, h])]
    apply consume_of_taken
    simp [react, readWhole, hpoint, h, mapLiteral, Literal.digit, Literal.startAt]
  case isFalse hdigit =>
  have hbegins : beginsLiteral c = false := by
    simpa [beginsLiteral, hpoint, hdigit] using hsign
  apply consume_of_taken
  simp only [react, awaitOperand, hopen, hbegins, if_false, Bool.false_eq_true, enter]
  split <;> rfl

theorem consume_inGroup :
    consume assoc ⟨.inGroup, depth, pivot, operand⟩ position c =
      if c = '(' then ⟨.inGroup, depth + 1, pivot, some .group⟩
      else if c = ')' then
        ⟨if depth = 1 then .operandDone else .inGroup, depth - 1, pivot, some .group⟩
      else ⟨.inGroup, depth, pivot, some .group⟩ := by
  apply consume_of_taken
  simp only [react, passGroup, enter]
  repeat' split
  all_goals rfl

theorem consume_of_endLiteral {phase : Phase}
    (h : react assoc ⟨phase, depth, pivot, some (.literal span)⟩ position c =
      endLiteral ⟨phase, depth, pivot, some (.literal span)⟩ c) :
    consume assoc ⟨phase, depth, pivot, some (.literal span)⟩ position c =
      if span.hasDigits then leave ⟨phase, depth, pivot, some (.literal span)⟩ assoc position c
      else ⟨.rejected, depth, pivot, some (.literal span)⟩ := by
  cases hd : span.hasDigits with
  | false =>
    apply consume_of_taken
    rw [h]
    simp [endLiteral, hasDigits, hd, enter]
  | true =>
    rw [if_pos rfl, leave]
    cases hop : Operator.ofChar? c with
    | some op =>
      have hb : isBlank c = false := by
        rw [Operator.ofChar?_eq_some_iff.mp hop]
        exact isBlank_symbol op
      have he : endLiteral ⟨phase, depth, pivot, some (.literal span)⟩ c =
          .handedOn ⟨.operator, depth, pivot, some (.literal span)⟩ := by
        simp [endLiteral, hasDigits, hd, hb, hop, enter]
      rw [consume_of_handedOn _ (h.trans he)]
      exact consume_operator hop
    | none =>
      apply consume_of_taken
      rw [h]
      cases hb : isBlank c <;> simp [endLiteral, hasDigits, hd, hb, hop, enter]

theorem consume_wholePart :
    consume assoc ⟨.wholePart, depth, pivot, some (.literal span)⟩ position c =
      if c = '.' then ⟨.fractionPart, depth, pivot, some (.literal (span.point position))⟩
      else if c.isDigit then ⟨.wholePart, depth, pivot, some (.literal (span.digit position))⟩
      else if span.hasDigits then
        leave ⟨.wholePart, depth, pivot, some (.literal span)⟩ assoc position c
      else ⟨.rejected, depth, pivot, some (.literal span)⟩ := by
  split
  case isTrue h =>
    apply consume_of_taken
    simp [react, readWhole, h, mapLiteral, enter]
  case isFalse hpoint =>
  split
  case isTrue h =>
    apply consume_of_taken
    simp [react, readWhole, hpoint, h, mapLiteral]
  case isFalse hdigit =>
  exact consume_of_endLiteral (by simp [react, readWhole, hpoint, hdigit])

theorem consume_fractionPart :
    consume assoc ⟨.fractionPart, depth, pivot, some (.literal span)⟩ position c =
      if c.isDigit then ⟨.fractionPart, depth, pivot, some (.literal (span.digit position))⟩
      else if span.hasDigits then
        leave ⟨.fractionPart, depth, pivot, some (.literal span)⟩ assoc position c
      else ⟨.rejected, depth, pivot, some (.literal span)⟩ := by
  split
  case isTrue h =>
    apply consume_of_taken
    simp [react, readFraction, h, mapLiteral]
  case isFalse hdigit =>
  exact consume_of_endLiteral (by simp [react, readFraction, hdigit])

theorem consume_operandDone :
    consume assoc ⟨.operandDone, depth, pivot, operand⟩ position c =
      leave ⟨.operandDone, depth, pivot, operand⟩ assoc position c := by
  simp only [leave, enter]
  cases hop : Operator.ofChar? c with
  | some op =>
    rw [consume_of_handedOn ⟨.operator, depth, pivot, operand⟩
      (by simp [react, awaitOperator, hop, enter])]
    exact consume_operator hop
  | none =>
    apply consume_of_taken
    simp only [react, awaitOperator, hop, Option.isSome_none, Bool.false_eq_true, if_false, enter]
    split <;> rfl

theorem consume_rejected :
    consume assoc ⟨.rejected, depth, pivot, operand⟩ position c =
      ⟨.rejected, depth, pivot, operand⟩ :=
  consume_of_taken rfl

-- ---------------------------------------------------------------------------
-- Texts
-- ---------------------------------------------------------------------------

@[simp] theorem through_nil : through assoc p position [] = p := rfl

theorem through_cons (rest : Text) :
    through assoc p position (c :: rest) =
      through assoc (consume assoc p position c) (position + c.utf8Size) rest := rfl

theorem through_append (a b : Text) :
    through assoc p position (a ++ b) =
      through assoc (through assoc p position a) (position + Text.size a) b := by
  induction a generalizing p position with
  | nil => rfl
  | cons c a ih =>
    rw [List.cons_append, through_cons, ih, through_cons, Text.size_cons, Nat.add_assoc]

end Progress

end Calculator
