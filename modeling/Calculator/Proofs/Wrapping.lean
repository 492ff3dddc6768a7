import Calculator.Proofs.Course

/-!
# Parentheses around a text

A pair of parentheses around a balanced text takes one level and does nothing else. A text in some
pairs of them, with one level more for each, is evaluated as the text alone: the sink takes the same
lines, and the result is the same unless the limit is met, which is then met in both
(`outcome_evaluate_wrapped`).
-/

namespace Calculator

/-- A text in a number of pairs of parentheses, with any blanks outside each pair. -/
inductive Wrapped (text : Text) : Nat → Text → Prop
  | bare : Wrapped text 0 text
  | pair {pairs : Nat} {before inner after : Text} : before.isAllBlank →
      Wrapped text pairs inner → after.isAllBlank →
      Wrapped text (pairs + 1) (before ++ '(' :: inner ++ ')' :: after)

/-- The results of two evaluations at two limits: the limit is met in both or in none, and without
it they are the same. -/
inductive SameUpToLimit (limit limit' : Nat) :
    Except Failure Number → Except Failure Number → Prop
  | same {result : Except Failure Number} : (∀ n, result ≠ .error (.tooDeep n)) →
      SameUpToLimit limit limit' result result
  | tooDeep : SameUpToLimit limit limit' (.error (.tooDeep limit)) (.error (.tooDeep limit'))

namespace SameUpToLimit

variable {limit limit' : Nat} {result : Except Failure Number}

theorem eq_ok {x : Number} (h : SameUpToLimit limit limit' (.ok x) result) : result = .ok x := by
  cases h
  rfl

theorem eq_tooDeep {n : Nat} (h : SameUpToLimit limit limit' (.error (.tooDeep n)) result) :
    result = .error (.tooDeep limit') := by
  cases h with
  | same hfree => exact absurd rfl (hfree n)
  | tooDeep => rfl

end SameUpToLimit

variable {text wrapped : Text} {limit limit' pairs : Nat}

theorem Wrapped.balanced (hw : Wrapped text pairs wrapped) (h : text.Balanced) :
    wrapped.Balanced := by
  induction hw with
  | bare => exact h
  | pair hb _ ha ih => exact Text.balanced_iff.mpr ((Term.group hb ih ha).openAfter? 0)

-- ---------------------------------------------------------------------------
-- Courses at two limits
-- ---------------------------------------------------------------------------

/-- Two courses at two limits with the same steps. Their messages are free. -/
structure Course.Parallel (limit limit' : Nat) (c d : Course) : Prop where
  steps : c.steps = d.steps
  result : SameUpToLimit limit limit' c.result d.result

namespace Course

variable {c d : Course}

theorem Parallel.after (h : c.Parallel limit limit' d) (message message' : Message) :
    (c.after (.noted message)).Parallel limit limit' (d.after (.noted message')) :=
  ⟨h.steps, h.result⟩

theorem Parallel.andThen {next next' : Number → Course} (h : c.Parallel limit limit' d)
    (hnext : ∀ x, (next x).Parallel limit limit' (next' x)) :
    (c.andThen next).Parallel limit limit' (d.andThen next') := by
  obtain ⟨events, result⟩ := c
  obtain ⟨events', result'⟩ := d
  obtain ⟨hsteps, hresult⟩ := h
  cases hresult with
  | tooDeep => exact ⟨hsteps, .tooDeep⟩
  | same hfree =>
    cases result with
    | error failure => exact ⟨hsteps, .same hfree⟩
    | ok x =>
      constructor
      · simp only [steps_andThen, hsteps, (hnext x).steps]
      · exact (hnext x).result

variable {σ : Type} {sink : Option (Sink σ)} {state : σ}

theorem Parallel.outcome (h : c.Parallel limit limit' d) :
    SameUpToLimit limit limit' (c.outcome sink state).1 (d.outcome sink state).1 ∧
      (c.outcome sink state).2 = (d.outcome sink state).2 := by
  cases sink with
  | none => exact ⟨h.result, rfl⟩
  | some sink =>
    have hlines : c.lines = d.lines := congrArg (List.map Step.line) h.steps
    unfold Course.outcome
    simp only [hlines]
    split
    · exact ⟨h.result, rfl⟩
    · exact ⟨.same fun n hn => by simp at hn, rfl⟩

theorem result_of_outcome {x : Number} (h : (c.outcome sink state).1 = .ok x) :
    c.result = .ok x := by
  cases sink with
  | none => exact h
  | some sink =>
    unfold Course.outcome at h
    simp only at h
    split at h
    · exact h
    · contradiction

end Course

-- ---------------------------------------------------------------------------
-- Courses of a text and of the text in parentheses
-- ---------------------------------------------------------------------------

namespace Tree

theorem course_parallel (tree : Tree) (limit limit' levels : Nat) :
    (tree.course limit levels).Parallel limit limit' (tree.course limit' levels) := by
  have hsame (c : Course) (hc : ∀ n, c.result ≠ .error (.tooDeep n)) :
      c.Parallel limit limit' c := ⟨rfl, .same hc⟩
  induction levels generalizing tree with
  | zero => exact ⟨rfl, .tooDeep⟩
  | succ levels ih =>
    cases tree with
    | malformed text => exact hsame _ (by simp [course])
    | literal text x => exact hsame _ (by simp [course])
    | group inner tree => exact (ih tree).after _ _
    | binary text op lhs rhs =>
      refine .after (.andThen (ih lhs) fun x => .andThen (ih rhs) fun y => ?_) _ _
      exact hsame _ (by simp)

end Tree

theorem Wrapped.course (assoc : Associativity) (hw : Wrapped text pairs wrapped)
    (h : text.Balanced) (limit limit' levels : Nat) :
    ((Tree.ofText assoc text).course limit levels).Parallel limit limit'
      ((Tree.ofText assoc wrapped).course limit' (levels + pairs)) := by
  induction hw with
  | bare => exact Tree.course_parallel _ limit limit' levels
  | pair hb hw ha ih =>
    rw [Tree.ofText_parenthesised assoc hb (hw.balanced h) ha]
    exact ⟨ih.steps, ih.result⟩

-- ---------------------------------------------------------------------------
-- Evaluation
-- ---------------------------------------------------------------------------

/-- A text with a value is balanced. Any balanced text in some pairs of parentheses, at a limit
raised by their number, has the value or the report that it has alone, and its sink is left in the
same state. Where the text alone comes to its limit, it comes to the raised one in the
parentheses. -/
theorem outcome_evaluate_wrapped {σ : Type} (assoc : Associativity) (limit : Nat)
    (sink : Option (Sink σ)) (trail : Trail σ) (text : Text) :
    (∀ x, (trail.outcome (evaluate ⟨limit, assoc⟩ sink text)).1 = .ok x → text.Balanced) ∧
      (text.Balanced → ∀ pairs wrapped, Wrapped text pairs wrapped →
        SameUpToLimit limit (limit + pairs)
            (trail.outcome (evaluate ⟨limit, assoc⟩ sink text)).1
            (trail.outcome (evaluate ⟨limit + pairs, assoc⟩ sink wrapped)).1 ∧
          (trail.outcome (evaluate ⟨limit, assoc⟩ sink text)).2 =
            (trail.outcome (evaluate ⟨limit + pairs, assoc⟩ sink wrapped)).2) := by
  simp only [outcome_evaluate]
  refine ⟨fun x hx => Tree.balanced_of_course (Course.result_of_outcome hx), ?_⟩
  intro h pairs wrapped hw
  have hcourse := hw.course assoc h limit (limit + pairs) (limit + 1)
  rw [Nat.add_right_comm] at hcourse
  exact hcourse.outcome

theorem outcome_evaluate_wrapped_twice :
    Text.Balanced ['1', '-', '2'] ∧
      Wrapped ['1', '-', '2'] 2 ['\u2003', '(', '(', '1', '-', '2', ')', '\t', ')'] ∧
      Trail.outcome ⟨#[], ⟨0, #[]⟩⟩ (evaluate ⟨3, .left⟩ (some Sink.collecting)
          ['\u2003', '(', '(', '1', '-', '2', ')', '\t', ')']) =
        Trail.outcome ⟨#[], ⟨0, #[]⟩⟩
          (evaluate ⟨1, .left⟩ (some Sink.collecting) ['1', '-', '2']) ∧
      (Trail.outcome ⟨#[], ⟨0, #[]⟩⟩
          (evaluate ⟨1, .left⟩ (some Sink.collecting) ['1', '-', '2'])).1.isOk = true ∧
      (Trail.outcome ⟨#[], ⟨0, #[]⟩⟩ (evaluate ⟨2, .left⟩ (some Sink.collecting)
          ['\u2003', '(', '(', '1', '-', '2', ')', '\t', ')'])).1 =
        .error (.tooDeep 2) := by
  have hb : Text.Balanced ['1', '-', '2'] := by decide
  have hw : Wrapped ['1', '-', '2'] 2 ['\u2003', '(', '(', '1', '-', '2', ')', '\t', ')'] :=
    @Wrapped.pair _ 1 ['\u2003'] ['(', '1', '-', '2', ')', '\t'] [] rfl
      (@Wrapped.pair _ 0 [] ['1', '-', '2'] ['\t'] rfl .bare rfl) rfl
  have htree : Tree.ofText .left ['1', '-', '2'] = .binary ['1', '-', '2'] .sub _ _ :=
    Tree.ofText_operation .left .sub (.digit rfl) (.digit rfl)
  have hthree :=
    (outcome_evaluate_wrapped .left 1 (some Sink.collecting) ⟨#[], ⟨0, #[]⟩⟩ _).2 hb _ _ hw
  have htwo :=
    (outcome_evaluate_wrapped .left 0 (some Sink.collecting) ⟨#[], ⟨0, #[]⟩⟩ _).2 hb _ _ hw
  simp only [outcome_evaluate, Course.ofText, htree] at hthree htwo ⊢
  exact ⟨hb, hw, Prod.ext hthree.1.eq_ok hthree.2.symm, rfl, htwo.1.eq_tooDeep⟩

end Calculator
