import Calculator.Level.Literal
import Calculator.Operator
import Calculator.Text.Blank

/-!
# Reading a level

A level is the text between a pair of parentheses, or the whole text: operands with
operators between them, where an operand is a literal or a group in parentheses. It is read
in one pass, which checks its form, passes over the insides of groups, and finds the
operator to be applied last, the pivot.

A phase may hand its character on to the phase that it leads to. `handsOn_of_react` says
where this happens. It always goes to a phase of lower rank (`rank_lt_of_react`), so each
character is taken at last.
-/

namespace Calculator

inductive Phase where
  | operandDue
  | inGroup
  | literalDue
  | wholePart
  | fractionPart
  | operandDone
  | operator
  | rejected
  deriving DecidableEq, Repr

/-- Bounds how often a character can still be handed on. -/
def Phase.rank : Phase → Nat
  | operandDue => 3
  | literalDue => 2
  | wholePart | fractionPart | operandDone => 1
  | inGroup | operator | rejected => 0

/-- An operator of the level and the byte position before it. -/
structure Pivot where
  position : Nat
  operator : Operator
  deriving DecidableEq, Repr

inductive Operand where
  | literal (span : Literal)
  | group
  deriving DecidableEq, Repr

structure Progress where
  phase : Phase
  depth : Nat
  /-- Of the operators so far, the one to be applied last. -/
  pivot : Option Pivot
  operand : Option Operand
  deriving DecidableEq, Repr

inductive Reaction where
  | taken (next : Progress)
  | handedOn (next : Progress)
  deriving DecidableEq, Repr

namespace Progress

def initial : Progress := ⟨.operandDue, 0, none, none⟩

def enter (p : Progress) (phase : Phase) : Progress := { p with phase := phase }

def hasDigits (p : Progress) : Bool :=
  match p.operand with
  | some (.literal span) => span.hasDigits
  | _ => false

def mapLiteral (p : Progress) (f : Literal → Literal) : Progress :=
  match p.operand with
  | some (.literal span) => { p with operand := some (.literal (f span)) }
  | _ => p

/-- Makes a new operator the pivot unless the one held is applied later. -/
def meet (p : Progress) (assoc : Associativity) (position : Nat) (op : Operator) : Progress :=
  match p.pivot with
  | none => { p with pivot := some ⟨position, op⟩ }
  | some held =>
    if assoc.prefersLater op held.operator then { p with pivot := some ⟨position, op⟩ } else p

-- ---------------------------------------------------------------------------
-- One phase and one character
-- ---------------------------------------------------------------------------

def beginsLiteral (c : Char) : Bool :=
  c = '+' || c = '-' || c = '.' || c.isDigit

def awaitOperand (p : Progress) (c : Char) : Reaction :=
  if c = '(' then .handedOn (p.enter .inGroup)
  else if beginsLiteral c then .handedOn (p.enter .literalDue)
  else if isBlank c then .taken p
  else .taken (p.enter .rejected)

def passGroup (p : Progress) (c : Char) : Reaction :=
  let p := { p with operand := some .group }
  if c = '(' then .taken { p with depth := p.depth + 1 }
  else if c = ')' then
    .taken ({ p with depth := p.depth - 1 }.enter (if p.depth = 1 then .operandDone else .inGroup))
  else .taken p

def beginLiteral (p : Progress) (position : Nat) (c : Char) : Reaction :=
  let span := Literal.startAt position
  if c = '+' ∨ c = '-' then
    .taken { p with phase := .wholePart, operand := some (.literal (span.sign (c = '-') position)) }
  else if c = '.' then
    .taken { p with phase := .fractionPart, operand := some (.literal (span.point position)) }
  else if c.isDigit then .handedOn { p with phase := .wholePart, operand := some (.literal span) }
  else .taken { p with phase := .rejected, operand := some (.literal span) }

def endLiteral (p : Progress) (c : Char) : Reaction :=
  if ¬ p.hasDigits then .taken (p.enter .rejected)
  else if isBlank c then .taken (p.enter .operandDone)
  else if (Operator.ofChar? c).isSome then .handedOn (p.enter .operator)
  else .taken (p.enter .rejected)

def readWhole (p : Progress) (position : Nat) (c : Char) : Reaction :=
  if c = '.' then .taken ((p.mapLiteral (·.point position)).enter .fractionPart)
  else if c.isDigit then .taken (p.mapLiteral (·.digit position))
  else p.endLiteral c

def readFraction (p : Progress) (position : Nat) (c : Char) : Reaction :=
  if c.isDigit then .taken (p.mapLiteral (·.digit position)) else p.endLiteral c

def awaitOperator (p : Progress) (c : Char) : Reaction :=
  if (Operator.ofChar? c).isSome then .handedOn (p.enter .operator)
  else if isBlank c then .taken p
  else .taken (p.enter .rejected)

def takeOperator (p : Progress) (assoc : Associativity) (position : Nat) (c : Char) : Reaction :=
  match Operator.ofChar? c with
  | some op => .taken ((p.meet assoc position op).enter .operandDue)
  | none => .taken (p.enter .rejected)

def react (assoc : Associativity) (p : Progress) (position : Nat) (c : Char) : Reaction :=
  match p.phase with
  | .operandDue => p.awaitOperand c
  | .inGroup => p.passGroup c
  | .literalDue => p.beginLiteral position c
  | .wholePart => p.readWhole position c
  | .fractionPart => p.readFraction position c
  | .operandDone => p.awaitOperator c
  | .operator => p.takeOperator assoc position c
  | .rejected => .taken p

/-- Where a character is handed on, and what it is then. -/
inductive HandsOn (position : Nat) (c : Char) : Progress → Progress → Prop
  | toGroup {depth : Nat} {pivot : Option Pivot} {operand : Option Operand} : c = '(' →
      HandsOn position c ⟨.operandDue, depth, pivot, operand⟩ ⟨.inGroup, depth, pivot, operand⟩
  | toLiteral {depth : Nat} {pivot : Option Pivot} {operand : Option Operand} :
      beginsLiteral c = true →
      HandsOn position c ⟨.operandDue, depth, pivot, operand⟩ ⟨.literalDue, depth, pivot, operand⟩
  | toDigits {depth : Nat} {pivot : Option Pivot} {operand : Option Operand} : c.isDigit = true →
      HandsOn position c ⟨.literalDue, depth, pivot, operand⟩
        ⟨.wholePart, depth, pivot, some (.literal (.startAt position))⟩
  | toOperator {phase : Phase} {depth : Nat} {pivot : Option Pivot} {operand : Option Operand} :
      phase = .wholePart ∨ phase = .fractionPart ∨ phase = .operandDone →
      (Operator.ofChar? c).isSome = true →
      HandsOn position c ⟨phase, depth, pivot, operand⟩ ⟨.operator, depth, pivot, operand⟩

theorem HandsOn.rank_lt {position : Nat} {c : Char} {p next : Progress}
    (h : HandsOn position c p next) : next.phase.rank < p.phase.rank := by
  cases h with
  | toGroup => simp [Phase.rank]
  | toLiteral => simp [Phase.rank]
  | toDigits => simp [Phase.rank]
  | toOperator hphase => rcases hphase with rfl | rfl | rfl <;> simp [Phase.rank]

theorem eq_of_endLiteral {p next : Progress} {c : Char} (h : p.endLiteral c = .handedOn next) :
    next = p.enter .operator ∧ (Operator.ofChar? c).isSome = true := by
  unfold endLiteral at h
  repeat' split at h
  all_goals simp only [Reaction.handedOn.injEq, reduceCtorEq] at h
  exact ⟨h.symm, ‹_›⟩

theorem handsOn_of_react {assoc : Associativity} {p next : Progress} {position : Nat} {c : Char}
    (h : react assoc p position c = .handedOn next) : HandsOn position c p next := by
  obtain ⟨phase, depth, pivot, operand⟩ := p
  cases phase with
  | operandDue =>
    simp only [react, awaitOperand] at h
    split at h
    · obtain rfl := Reaction.handedOn.inj h
      exact .toGroup ‹_›
    split at h
    · obtain rfl := Reaction.handedOn.inj h
      exact .toLiteral ‹_›
    split at h
    all_goals contradiction
  | inGroup =>
    simp only [react, passGroup] at h
    repeat' split at h
    all_goals contradiction
  | literalDue =>
    simp only [react, beginLiteral] at h
    repeat' split at h
    all_goals simp only [Reaction.handedOn.injEq, reduceCtorEq] at h
    exact h ▸ .toDigits ‹_›
  | wholePart =>
    simp only [react, readWhole] at h
    repeat' split at h
    · contradiction
    · contradiction
    · obtain ⟨rfl, hop⟩ := eq_of_endLiteral h
      exact .toOperator (.inl rfl) hop
  | fractionPart =>
    simp only [react, readFraction] at h
    split at h
    · contradiction
    · obtain ⟨rfl, hop⟩ := eq_of_endLiteral h
      exact .toOperator (.inr (.inl rfl)) hop
  | operandDone =>
    simp only [react, awaitOperator] at h
    repeat' split at h
    all_goals simp only [Reaction.handedOn.injEq, reduceCtorEq] at h
    exact h ▸ .toOperator (.inr (.inr rfl)) ‹_›
  | operator =>
    simp only [react, takeOperator] at h
    split at h
    all_goals contradiction
  | rejected => contradiction

theorem rank_lt_of_react {assoc : Associativity} {p next : Progress} {position : Nat} {c : Char}
    (h : react assoc p position c = .handedOn next) : next.phase.rank < p.phase.rank :=
  (handsOn_of_react h).rank_lt

-- ---------------------------------------------------------------------------
-- Characters and texts
-- ---------------------------------------------------------------------------

def consume (assoc : Associativity) (p : Progress) (position : Nat) (c : Char) : Progress :=
  match _h : react assoc p position c with
  | .taken next => next
  | .handedOn next => consume assoc next position c
termination_by p.phase.rank
decreasing_by exact rank_lt_of_react _h

def through (assoc : Associativity) (p : Progress) (position : Nat) : Text → Progress
  | [] => p
  | c :: rest => through assoc (consume assoc p position c) (position + c.utf8Size) rest

/-- Whether the level may end here. After an operator it may: the missing operand is found
when the blank rest is read as a level of its own. -/
def mayEnd (p : Progress) : Bool :=
  match p.phase with
  | .inGroup | .rejected => false
  | .literalDue | .wholePart | .fractionPart => p.hasDigits
  | .operandDue | .operandDone | .operator => true

end Progress

end Calculator
