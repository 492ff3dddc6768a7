import Calculator.Proofs.Shape
import Calculator.Proofs.Ties

/-!
# Where a level is cut

The pivot of a level is found here in its text. It is an operator that may come next where it
stands; no operator of the level is weaker; and of the equally strong ones it is the first if
operators associate on the right, and the last if they associate on the left. No level has two
such places, and it is cut at the one that it has (`Level.ofText_eq_binary_iff`).
-/

namespace Calculator

/-- The operator between the two sides of a level is applied after all its other operators. -/
structure AppliedLast (assoc : Associativity) (lhs : Text) (op : Operator) (rhs : Text) :
    Prop where
  due : OperatorDue lhs
  weakest : ∀ (head : Text) (other : Operator) (tail : Text),
    lhs ++ op.symbol :: rhs = head ++ other.symbol :: tail → OperatorDue head →
      op.strength ≤ other.strength
  first : assoc = .right → ∀ (head : Text) (other : Operator) (between : Text),
    lhs = head ++ other.symbol :: between → OperatorDue head → other.strength ≠ op.strength
  last : assoc = .left → ∀ (between : Text) (other : Operator) (tail : Text),
    rhs = between ++ other.symbol :: tail → OperatorDue (lhs ++ op.symbol :: between) →
      other.strength ≠ op.strength

variable {assoc : Associativity} {before after links : List (Link Text)} {link : Link Text}
  {a last : Text} {op : Operator}

-- ---------------------------------------------------------------------------
-- How strong the other operators are
-- ---------------------------------------------------------------------------

namespace IsPivot

theorem strength_le (h : IsPivot assoc before op after) (hlink : link ∈ before ++ ⟨a, op⟩ :: after) :
    op.strength ≤ link.operator.strength := by
  rcases List.mem_append.mp hlink with hlink | hlink
  · have hlater := h.ofBefore link hlink
    rw [Associativity.prefersLater_iff] at hlater
    omega
  rcases List.mem_cons.mp hlink with rfl | hlink
  · exact Nat.le_refl _
  · have hkept := h.ofAfter link hlink
    rw [Bool.eq_false_iff, ne_eq, Associativity.prefersLater_iff] at hkept
    omega

theorem strength_ne_of_before (h : IsPivot .right before op after) (hlink : link ∈ before) :
    link.operator.strength ≠ op.strength := by
  have hlater := h.ofBefore link hlink
  simp only [Associativity.prefersLater, decide_eq_true_eq] at hlater
  omega

theorem strength_ne_of_after (h : IsPivot .left before op after) (hlink : link ∈ after) :
    link.operator.strength ≠ op.strength := by
  have hkept := h.ofAfter link hlink
  simp only [Associativity.prefersLater, decide_eq_false_iff_not] at hkept
  omega

end IsPivot

-- ---------------------------------------------------------------------------
-- Operators of a chain and of its text
-- ---------------------------------------------------------------------------

namespace Chain

theorem WellFormed.exists_due (h : WellFormed ⟨links, last⟩) (hlink : link ∈ links) :
    ∃ head tail : Text, text ⟨links, last⟩ = head ++ link.operator.symbol :: tail ∧
      OperatorDue head := by
  obtain ⟨left, right, rfl⟩ := List.append_of_mem hlink
  exact ⟨_, _, text_cut left right link.operand last link.operator, h.operatorDue_cut⟩

theorem WellFormed.exists_due_after (h : WellFormed ⟨before ++ ⟨a, op⟩ :: after, last⟩)
    (hlink : link ∈ after) :
    ∃ between tail : Text, text ⟨after, last⟩ = between ++ link.operator.symbol :: tail ∧
      OperatorDue (text ⟨before, a⟩ ++ op.symbol :: between) := by
  obtain ⟨left, right, rfl⟩ := List.append_of_mem hlink
  exact ⟨_, _, text_cut left right link.operand last link.operator, h.operatorDue_behind⟩

end Chain

theorem IsPivot.appliedLast (hp : IsPivot assoc before op after)
    (h : Chain.WellFormed ⟨before ++ ⟨a, op⟩ :: after, last⟩) :
    AppliedLast assoc (Chain.text ⟨before, a⟩) op (Chain.text ⟨after, last⟩) := by
  obtain ⟨hl, hr⟩ := h.cut
  have hdue := h.operatorDue_cut
  constructor
  case due => exact hdue
  case weakest =>
    intro head other tail htext hhead
    rw [← Chain.text_cut] at htext
    obtain ⟨link, hlink, rfl⟩ := h.exists_mem htext hhead.through
    exact hp.strength_le hlink
  case first =>
    rintro rfl head other between htext hhead
    obtain ⟨link, hlink, rfl⟩ := hl.exists_mem htext hhead.through
    exact hp.strength_ne_of_before hlink
  case last =>
    rintro rfl between other tail htext hbetween
    obtain ⟨link, hlink, rfl⟩ := hr.exists_mem htext (hdue.through_tail hbetween)
    exact hp.strength_ne_of_after hlink

theorem AppliedLast.isPivot
    (hlast : AppliedLast assoc (Chain.text ⟨before, a⟩) op (Chain.text ⟨after, last⟩))
    (h : Chain.WellFormed ⟨before ++ ⟨a, op⟩ :: after, last⟩) : IsPivot assoc before op after := by
  have hle {link : Link Text} (hlink : link ∈ before ++ ⟨a, op⟩ :: after) :
      op.strength ≤ link.operator.strength := by
    obtain ⟨head, tail, htext, hhead⟩ := h.exists_due hlink
    rw [Chain.text_cut] at htext
    exact hlast.weakest head link.operator tail htext hhead
  constructor
  · intro link hlink
    have hweak := hle (List.mem_append_left _ hlink)
    obtain ⟨head, between, htext, hhead⟩ := h.cut.1.exists_due hlink
    rw [Associativity.prefersLater_iff]
    cases assoc with
    | right =>
      have hne := hlast.first rfl head link.operator between htext hhead
      omega
    | left => simpa using Nat.lt_or_eq_of_le hweak
  · intro link hlink
    have hweak := hle (List.mem_append_right _ (List.mem_cons_of_mem _ hlink))
    obtain ⟨between, tail, htext, hbetween⟩ := h.exists_due_after hlink
    rw [Bool.eq_false_iff, ne_eq, Associativity.prefersLater_iff]
    cases assoc with
    | right => simpa using hweak
    | left =>
      have hne := hlast.last rfl between link.operator tail htext hbetween
      omega

/-- A level is binary exactly at the operator that is applied last, and its two sides are all that
stands before and after this operator. -/
theorem Level.ofText_eq_binary_iff {text lhs rhs : Text} :
    ofText assoc text = .ok (.binary lhs op rhs) ↔
      (∃ ops, LevelForm ops text) ∧ text = lhs ++ op.symbol :: rhs ∧
        AppliedLast assoc lhs op rhs := by
  constructor
  · intro h
    refine ⟨exists_iff_form.mp ⟨_, h⟩, ?_⟩
    cases ofText_eq_ok_iff.mp h with
    | binary hc hp => exact ⟨Chain.text_cut .., hp.appliedLast hc⟩
  · rintro ⟨⟨ops, hform⟩, rfl, hlast⟩
    obtain ⟨⟨links, last⟩, hc, htext, -, -⟩ := hform.exists_chain
    obtain ⟨before, a, after, rfl, rfl, rfl⟩ := hc.exists_cut htext hlast.due.through
    rw [← Chain.text_cut]
    exact ofText_cut hc (hlast.isPivot hc)

example : (Level.ofText .right "8-3-2".toList).toOption =
    some (.binary "8".toList .sub "3-2".toList) := by decide +kernel

example : (Level.ofText .left "8-3-2".toList).toOption =
    some (.binary "8-3".toList .sub "2".toList) := by decide +kernel

end Calculator
