import Calculator.Proofs.Course

/-!
# Expressions and their renderings

An expression may be written with any blanks between its tokens and any parentheses beyond those
it needs. Read back, every such text is cut at the root of the expression first
(`Renders.ofText_binary`), so it is evaluated in the order of the expression: the operands of an
operator before it, the left one first.
-/

namespace Calculator

inductive Expr where
  | literal (body : Text) (numeral : Numeral body)
  | binary (op : Operator) (lhs rhs : Expr)

namespace Expr

def value : Expr → Number
  | literal _ numeral => numeral.value
  | binary op lhs rhs => op.apply lhs.value rhs.value

def steps : Expr → List Step
  | literal .. => []
  | binary op lhs rhs => lhs.steps ++ rhs.steps ++ [Step.ofOperands op lhs.value rhs.value]

end Expr

/-- Whether an operand with an operator of its own needs parentheses on a side of another
operator. Between operators of equal strength the side on which they associate needs none. -/
def NeedsParentheses (assoc side : Associativity) (op own : Operator) : Prop :=
  own.strength < op.strength ∨ own.strength = op.strength ∧ assoc ≠ side

/-- The texts of an expression. Each shows the operator at the root of the expression unless
parentheses hide it. -/
inductive Renders (assoc : Associativity) : Expr → Option Operator → Text → Prop
  | literal {before body after : Text} {numeral : Numeral body} : before.isAllBlank →
      after.isAllBlank → Renders assoc (.literal body numeral) none (before ++ body ++ after)
  | parenthesised {e : Expr} {shown : Option Operator} {before text after : Text} :
      before.isAllBlank → Renders assoc e shown text → after.isAllBlank →
      Renders assoc e none (before ++ '(' :: text ++ ')' :: after)
  | binary {op : Operator} {lhs rhs : Expr} {left right : Option Operator} {ltext rtext : Text} :
      Renders assoc lhs left ltext → (∀ own ∈ left, ¬ NeedsParentheses assoc .left op own) →
      Renders assoc rhs right rtext → (∀ own ∈ right, ¬ NeedsParentheses assoc .right op own) →
      Renders assoc (.binary op lhs rhs) (some op) (ltext ++ op.symbol :: rtext)

variable {assoc : Associativity} {op : Operator} {e : Expr} {shown left right : Option Operator}
  {text : Text}

-- ---------------------------------------------------------------------------
-- The chain of a rendering
-- ---------------------------------------------------------------------------

/-- A chain of operands whose operators are all as strong as the one that is shown. -/
structure Shows (c : Chain Text) (shown : Option Operator) : Prop where
  wellFormed : c.WellFormed
  last : Term c.last
  links : ∀ link ∈ c.links, ∃ root ∈ shown, root.strength ≤ link.operator.strength

theorem Shows.single (h : Term text) : Shows ⟨[], text⟩ none :=
  ⟨Chain.wellFormed_single h, h, by simp⟩

theorem Shows.isPivot {lhs rhs : Chain Text} (hl : Shows lhs left)
    (hleft : ∀ own ∈ left, ¬ NeedsParentheses assoc .left op own) (hr : Shows rhs right)
    (hright : ∀ own ∈ right, ¬ NeedsParentheses assoc .right op own) :
    IsPivot assoc lhs.links op rhs.links := by
  constructor
  · intro link hlink
    -- Every operator on this side is as strong as the root that stands bare.
    obtain ⟨root, hroot, hle⟩ := hl.links link hlink
    have hbare := hleft root hroot
    rw [Associativity.prefersLater_iff]
    unfold NeedsParentheses at hbare
    grind
  · intro link hlink
    obtain ⟨root, hroot, hle⟩ := hr.links link hlink
    have hbare := hright root hroot
    rw [Bool.eq_false_iff, ne_eq, Associativity.prefersLater_iff]
    unfold NeedsParentheses at hbare
    grind

theorem Shows.join {lhs rhs : Chain Text} (hl : Shows lhs left)
    (hleft : ∀ own ∈ left, ¬ NeedsParentheses assoc .left op own) (hr : Shows rhs right)
    (hright : ∀ own ∈ right, ¬ NeedsParentheses assoc .right op own) :
    Shows ⟨lhs.links ++ ⟨lhs.last, op⟩ :: rhs.links, rhs.last⟩ (some op) := by
  refine ⟨hl.wellFormed.join op hl.last hr.wellFormed, hr.last, ?_⟩
  have hpivot := hl.isPivot hleft hr hright
  intro link hlink
  refine ⟨op, rfl, ?_⟩
  rcases List.mem_append.mp hlink with hlink | hlink
  · have h := hpivot.ofBefore link hlink
    rw [Associativity.prefersLater_iff] at h
    omega
  rcases List.mem_cons.mp hlink with rfl | hlink
  · exact Nat.le_refl _
  · have h := hpivot.ofAfter link hlink
    rw [Bool.eq_false_iff, ne_eq, Associativity.prefersLater_iff] at h
    omega

theorem Renders.exists_chain (h : Renders assoc e shown text) :
    ∃ c : Chain Text, Shows c shown ∧ c.text = text := by
  induction h with
  | literal hb ha => exact ⟨_, .single (.literal hb ‹_› ha), rfl⟩
  | parenthesised hb _ ha ih =>
    obtain ⟨c, hc, rfl⟩ := ih
    exact ⟨_, .single (.group hb hc.wellFormed.balanced ha), rfl⟩
  | binary _ hleft _ hright ihl ihr =>
    obtain ⟨lhs, hl, rfl⟩ := ihl
    obtain ⟨rhs, hr, rfl⟩ := ihr
    exact ⟨_, hl.join hleft hr hright, Chain.text_cut ..⟩

theorem Renders.balanced (h : Renders assoc e shown text) : text.Balanced := by
  obtain ⟨c, hc, rfl⟩ := h.exists_chain
  exact hc.wellFormed.balanced

-- ---------------------------------------------------------------------------
-- The tree of a rendering
-- ---------------------------------------------------------------------------

theorem Renders.ofText_binary {ltext rtext : Text} {lhs rhs : Expr}
    (hl : Renders assoc lhs left ltext)
    (hleft : ∀ own ∈ left, ¬ NeedsParentheses assoc .left op own)
    (hr : Renders assoc rhs right rtext)
    (hright : ∀ own ∈ right, ¬ NeedsParentheses assoc .right op own) :
    Tree.ofText assoc (ltext ++ op.symbol :: rtext) =
      .binary (ltext ++ op.symbol :: rtext) op (Tree.ofText assoc ltext)
        (Tree.ofText assoc rtext) := by
  obtain ⟨lchain, hlc, rfl⟩ := hl.exists_chain
  obtain ⟨rchain, hrc, rfl⟩ := hr.exists_chain
  have h := Tree.ofText_chain (hlc.join hleft hrc hright).wellFormed
    (hlc.isPivot hleft hrc hright)
  rwa [Chain.text_cut] at h

theorem Renders.value_tree (h : Renders assoc e shown text) :
    (Tree.ofText assoc text).value = .ok e.value := by
  induction h with
  | literal hb ha =>
    rw [Tree.ofText_numeral assoc hb ‹_› ha]
    rfl
  | parenthesised hb h ha ih =>
    rw [Tree.ofText_parenthesised assoc hb h.balanced ha]
    exact ih
  | binary hl hleft hr hright ihl ihr =>
    rw [hl.ofText_binary hleft hr hright]
    exact Tree.value_binary_ok ihl ihr

theorem Renders.steps_tree (h : Renders assoc e shown text) :
    (Tree.ofText assoc text).steps = e.steps := by
  induction h with
  | literal hb ha =>
    rw [Tree.ofText_numeral assoc hb ‹_› ha]
    rfl
  | parenthesised hb h ha ih =>
    rw [Tree.ofText_parenthesised assoc hb h.balanced ha]
    exact ih
  | binary hl hleft hr hright ihl ihr =>
    rw [hl.ofText_binary hleft hr hright, Tree.steps_binary_ok hl.value_tree hr.value_tree,
      ihl, ihr]
    rfl

/-- However an expression is written, it is evaluated to its value, and each of its operators
leaves one line, those of its operands before it. -/
theorem evaluate_rendering {settings : Settings} {e : Expr} {shown : Option Operator} {text : Text}
    (h : Renders settings.associativity e shown text) (hsize : text.size ≤ settings.maxDepth)
    (trail : Trail (Array Text)) :
    (trail.run (evaluate settings (some Sink.collecting) text)).1 = .ok e.value ∧
      (trail.run (evaluate settings (some Sink.collecting) text)).2.sink =
        trail.sink ++ e.steps.map Step.line := by
  obtain ⟨hresult, hsink⟩ := run_evaluate_collecting hsize trail
  rw [hresult, hsink, h.value_tree, h.steps_tree]
  exact ⟨rfl, rfl⟩

def nestedDifference : Expr :=
  .binary .sub (.literal ['8'] (.digit rfl))
    (.binary .sub (.literal ['3'] (.digit rfl)) (.literal ['2'] (.digit rfl)))

theorem evaluate_rendering_nestedDifference :
    Renders .left nestedDifference (some .sub) ['8', ' ', '-', '(', '3', '-', '2', ')'] ∧
      Text.size ['8', ' ', '-', '(', '3', '-', '2', ')'] ≤ 8 ∧
      (Trail.run ⟨#[], ⟨0, #[]⟩⟩
        (evaluate ⟨8, .left⟩ (some Sink.collecting) ['8', ' ', '-', '(', '3', '-', '2', ')'])).1 =
          .ok nestedDifference.value ∧
      (Trail.run ⟨#[], ⟨0, #[]⟩⟩
        (evaluate ⟨8, .left⟩ (some Sink.collecting)
          ['8', ' ', '-', '(', '3', '-', '2', ')'])).2.sink =
          (#[] : Array Text) ++ nestedDifference.steps.map Step.line := by
  have hliteral (c : Char) (h : c.isDigit = true) (blanks : Text) (hb : blanks.isAllBlank) :
      Renders .left (.literal [c] (.digit h)) none (c :: blanks) :=
    @Renders.literal .left [] [c] blanks _ rfl hb
  have hinner := @Renders.binary .left .sub _ _ _ _ _ _ (hliteral '3' rfl [] rfl) (by simp)
    (hliteral '2' rfl [] rfl) (by simp)
  have houter := @Renders.binary .left .sub _ _ _ _ _ _ (hliteral '8' rfl [' '] rfl) (by simp)
    (@Renders.parenthesised .left _ _ [] _ [] rfl hinner rfl) (by simp)
  have hsize : Text.size ['8', ' ', '-', '(', '3', '-', '2', ')'] ≤ 8 := by decide
  exact ⟨houter, hsize, evaluate_rendering houter hsize ⟨#[], ⟨0, #[]⟩⟩⟩

end Calculator
