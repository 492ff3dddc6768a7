import Calculator.Proofs.Course

/-!
# Depth

Evaluation needs as many levels as its tree has reach. With fewer it comes to the limit, and has
shown the first of its lines by then; more of them change nothing (`exists_depth_threshold`). A
counter that goes up from the whole text never passes the length of the text
(`evaluateCounting_eq`).
-/

namespace Calculator

/-- The characters with a level below them: operators and opening parentheses. -/
def opensLevel (c : Char) : Bool := c = '(' || (Operator.ofChar? c).isSome

-- ---------------------------------------------------------------------------
-- Too few levels
-- ---------------------------------------------------------------------------

/-- A course that may end earlier than another does, but not with a value. -/
structure Course.Within (c d : Course) : Prop where
  steps : c.steps <+: d.steps
  ofValue : ∀ x, c.result = .ok x → d.result = .ok x ∧ c.steps = d.steps

namespace Course

theorem within_iff {c d : Course} : c.Within d ↔ c.UpTo (fun _ => True) d := by
  constructor
  · intro h
    refine ⟨h.steps, ?_⟩
    cases hc : c.result with
    | error failure => exact .inl ⟨failure, trivial, rfl⟩
    | ok x =>
      obtain ⟨hd, hsteps⟩ := h.ofValue x hc
      exact .inr ⟨hd.symm, hsteps⟩
  · intro h
    refine ⟨h.steps, fun x hx => ?_⟩
    rcases h.ended with ⟨failure, -, hc⟩ | ⟨hresult, hsteps⟩
    · rw [hx] at hc
      contradiction
    · exact ⟨hresult ▸ hx, hsteps⟩

theorem Within.refl (c : Course) : c.Within c := within_iff.mpr (.refl c)

theorem Within.after {c d : Course} (h : c.Within d) (message : Message) :
    (c.after (.noted message)).Within (d.after (.noted message)) :=
  within_iff.mpr ((within_iff.mp h).after message message)

theorem Within.andThen {c d : Course} {next next' : Number → Course} (h : c.Within d)
    (hnext : ∀ x, (next x).Within (next' x)) : (c.andThen next).Within (d.andThen next') :=
  within_iff.mpr ((within_iff.mp h).andThen fun x => within_iff.mp (hnext x))

end Course

namespace Tree

theorem course_within (tree : Tree) {levels more : Nat} (maxDepth maxDepth' : Nat)
    (h : levels ≤ more) : (tree.course maxDepth levels).Within (tree.course maxDepth' more) := by
  induction tree generalizing levels more with
  | malformed | literal =>
    cases levels with
    | zero => exact ⟨List.nil_prefix, fun _ h => nomatch h⟩
    | succ levels =>
      obtain ⟨more, rfl⟩ := Nat.exists_eq_succ_of_ne_zero (Nat.ne_zero_of_lt h)
      exact .refl _
  | group inner tree ih =>
    cases levels with
    | zero => exact ⟨List.nil_prefix, fun _ h => nomatch h⟩
    | succ levels =>
      obtain ⟨more, rfl⟩ := Nat.exists_eq_succ_of_ne_zero (Nat.ne_zero_of_lt h)
      exact (ih (Nat.le_of_succ_le_succ h)).after _
  | binary text op lhs rhs ihl ihr =>
    cases levels with
    | zero => exact ⟨List.nil_prefix, fun _ h => nomatch h⟩
    | succ levels =>
      obtain ⟨more, rfl⟩ := Nat.exists_eq_succ_of_ne_zero (Nat.ne_zero_of_lt h)
      have hle := Nat.le_of_succ_le_succ h
      exact .after ((ihl hle).andThen fun x => (ihr hle).andThen fun y => .refl _) _

theorem result_course_of_le_reach {tree : Tree} {levels : Nat} (maxDepth : Nat)
    (h : levels ≤ tree.reach) :
    (tree.course maxDepth levels).result = .error (.tooDeep maxDepth) := by
  induction tree generalizing levels with
  | malformed | literal =>
    obtain rfl := Nat.le_zero.mp h
    rfl
  | group inner tree ih =>
    cases levels with
    | zero => rfl
    | succ levels => exact ih (Nat.le_of_succ_le_succ h)
  | binary text op lhs rhs ihl ihr =>
    cases levels with
    | zero => rfl
    | succ levels =>
    rw [course, Course.after]
    simp only [Course.result_andThen]
    by_cases hleft : levels ≤ lhs.reach
    · rw [ihl hleft]
      rfl
    · -- The left operand has levels enough, so it is the right one that has too few.
      have hlt := Nat.lt_of_not_le hleft
      obtain ⟨levels, rfl⟩ := Nat.exists_eq_succ_of_ne_zero (Nat.ne_zero_of_lt hlt)
      rw [reach] at h
      cases hl : lhs.value with
      | error report =>
        simp only [hl] at h
        omega
      | ok x =>
        simp only [hl] at h
        rw [result_course maxDepth (Nat.le_of_lt_succ hlt), hl, ihr (by omega)]
        rfl

theorem height_ofText_le_count (assoc : Associativity) (text : Text) :
    (ofText assoc text).height ≤ text.countP opensLevel := by
  induction text using ofTextInduction assoc with
  | malformed text _ => exact Nat.zero_le _
  | literal text value _ => exact Nat.zero_le _
  | group text inner hr ih =>
    cases hr with
    | group hb hi ha =>
      have hopen : opensLevel '(' = true := rfl
      simp only [height, List.countP_append, List.countP_cons, hopen, if_true]
      omega
  | binary text lhs op rhs hr ihl ihr =>
    cases hr with
    | binary hc hp =>
      have hopen : opensLevel op.symbol = true := by cases op <;> rfl
      simp only [height, Chain.text_cut, List.countP_append, List.countP_cons, hopen, if_true]
      omega

end Tree

-- ---------------------------------------------------------------------------
-- Counting upwards
-- ---------------------------------------------------------------------------

variable {σ : Type}

/-- Evaluates a text at a depth, with a counter for the depth. What is done when the counter goes
over its capacity is left open. -/
def evaluateCounting (settings : Settings) (sink : Option (Sink σ)) (capacity : Nat)
    (overflow : EvalM σ Number) (depth : Nat) (text : Text) : EvalM σ Number :=
  if capacity < depth then overflow
  else if settings.maxDepth < depth then do
    note (.limitReached settings.maxDepth)
    throw (.tooDeep settings.maxDepth)
  else
    match _h : Level.ofText settings.associativity text with
    | .error report => throw (.malformed report)
    | .ok (.binary lhs op rhs) => do
      note (.splitting text op)
      let left ← evaluateCounting settings sink capacity overflow (depth + 1) lhs
      let right ← evaluateCounting settings sink capacity overflow (depth + 1) rhs
      applyOperator sink op left right
    | .ok (.literal value) => do
      note (.literal text value)
      pure value
    | .ok (.group inner) => do
      note (.unwrapping inner)
      evaluateCounting settings sink capacity overflow (depth + 1) inner
termination_by text.length
decreasing_by
  · exact (Level.length_lt_of_binary _h).1
  · exact (Level.length_lt_of_binary _h).2
  · exact Level.length_lt_of_group _h

theorem Level.size_lt_of_group {assoc : Associativity} {text inner : Text}
    (h : ofText assoc text = .ok (.group inner)) : inner.size < text.size := by
  cases ofText_eq_ok_iff.mp h
  have := Char.utf8Size_pos '('
  simp only [Text.size_append, Text.size_cons]
  omega

theorem Level.size_lt_of_binary {assoc : Associativity} {text lhs rhs : Text} {op : Operator}
    (h : ofText assoc text = .ok (.binary lhs op rhs)) :
    lhs.size < text.size ∧ rhs.size < text.size := by
  cases ofText_eq_ok_iff.mp h
  have := Char.utf8Size_pos op.symbol
  simp only [Chain.text_cut, Text.size_append, Text.size_cons]
  omega

theorem evaluateCounting_eq {settings : Settings} {sink : Option (Sink σ)}
    {capacity depth levels : Nat} (overflow : EvalM σ Number) {text : Text}
    (hlevels : depth + levels = settings.maxDepth + 1) (hsize : depth + text.size ≤ capacity) :
    evaluateCounting settings sink capacity overflow depth text =
      evaluateWithin settings sink levels text := by
  induction levels generalizing depth text with
  | zero =>
    rw [evaluateCounting, if_neg (by omega), if_pos (by omega)]
    rfl
  | succ levels ih =>
    have hnext : depth + 1 + levels = settings.maxDepth + 1 := by omega
    rw [evaluateCounting, if_neg (by omega), if_neg (by omega), evaluateWithin]
    split
    case h_1 report h => rw [h]
    case h_2 lhs op rhs h =>
      obtain ⟨hl, hr⟩ := Level.size_lt_of_binary h
      rw [h, ih hnext (by omega), ih hnext (by omega)]
    case h_3 value h => rw [h]
    case h_4 inner h =>
      have hlt := Level.size_lt_of_group h
      rw [h, ih hnext (by omega)]

-- ---------------------------------------------------------------------------
-- The threshold
-- ---------------------------------------------------------------------------

/-- Below the threshold an evaluation ends at the limit, with a part of the lines that any higher
limit lets it show. From there on the limit is of no influence. The threshold of a text with a
value is the height of its tree. -/
theorem exists_depth_threshold (assoc : Associativity) (text : Text) :
    ∃ threshold ≤ text.countP opensLevel,
      (∀ d e, threshold ≤ d → threshold ≤ e →
        evaluateKeeping ⟨d, assoc⟩ text = evaluateKeeping ⟨e, assoc⟩ text) ∧
      (∀ d < threshold, (evaluateKeeping ⟨d, assoc⟩ text).1 = .error (.tooDeep d) ∧
        ∀ e, d < e →
          (evaluateKeeping ⟨d, assoc⟩ text).2 <+: (evaluateKeeping ⟨e, assoc⟩ text).2) ∧
      (∀ d x, (evaluateKeeping ⟨d, assoc⟩ text).1 = .ok x →
        threshold = (Tree.ofText assoc text).height) ∧
      ∀ {σ : Type} (maxDepth : Nat) (sink : Option (Sink σ)) (overflow : EvalM σ Number) (capacity),
        text.size ≤ capacity →
          evaluateCounting ⟨maxDepth, assoc⟩ sink capacity overflow 0 text =
            evaluate ⟨maxDepth, assoc⟩ sink text := by
  simp only [evaluateKeeping_eq]
  have hbelow (d : Nat) (h : d < (Tree.ofText assoc text).reach) :
      (Course.ofText ⟨d, assoc⟩ text).result = .error (.tooDeep d) :=
    Tree.result_course_of_le_reach d h
  refine ⟨(Tree.ofText assoc text).reach, ?_, ?_, ?_, ?_, ?_⟩
  · exact Nat.le_trans (Tree.reach_le_height _) (Tree.height_ofText_le_count assoc text)
  · intro d e hd he
    simp only [Course.ofText, Course.lines]
    rw [Tree.result_course d hd, Tree.result_course e he, Tree.steps_course d hd,
      Tree.steps_course e he]
  · intro d hd
    refine ⟨hbelow d hd, fun e he => ?_⟩
    have hle := Nat.succ_le_succ (Nat.le_of_lt he)
    exact ((Tree.ofText assoc text).course_within d e hle).steps.map Step.line
  · intro d x hx
    -- A value is found only with levels enough.
    have henough : (Tree.ofText assoc text).reach ≤ d := by
      refine Nat.le_of_not_lt fun hlt => ?_
      rw [hbelow d hlt] at hx
      contradiction
    rw [Course.ofText, Tree.result_course d henough] at hx
    cases hv : (Tree.ofText assoc text).value with
    | error report =>
      rw [hv] at hx
      contradiction
    | ok y => exact Tree.reach_eq_height hv
  · intro σ maxDepth sink overflow capacity hsize
    exact evaluateCounting_eq overflow (Nat.zero_add _) (by omega)

theorem exists_depth_threshold_nested :
    ∃ threshold ≤ List.countP opensLevel ['(', '(', '1', ')', ')'],
      threshold = 2 ∧
      (evaluateKeeping ⟨1, .right⟩ ['(', '(', '1', ')', ')']).1 = .error (.tooDeep 1) ∧
      evaluateKeeping ⟨2, .right⟩ ['(', '(', '1', ')', ')'] =
        evaluateKeeping ⟨1024, .right⟩ ['(', '(', '1', ')', ')'] := by
  have hinner : Tree.ofText .right ['(', '1', ')'] = .group ['1'] (Tree.ofText .right ['1']) :=
    @Tree.ofText_bareGroup .right ['1'] (by decide)
  have htree : Tree.ofText .right ['(', '(', '1', ')', ')'] =
      .group ['(', '1', ')'] (Tree.ofText .right ['(', '1', ')']) :=
    @Tree.ofText_bareGroup .right ['(', '1', ')'] (by decide)
  rw [hinner, Tree.ofText_bareNumeral .right (.digit rfl : Numeral ['1'])] at htree
  have hcourse : Course.ofText ⟨2, .right⟩ ['(', '(', '1', ')', ')'] = Tree.course 2 3 _ :=
    congrArg (Tree.course 2 3) htree
  obtain ⟨threshold, hcount, habove, hbelow, hheight, -⟩ :=
    exists_depth_threshold .right ['(', '(', '1', ')', ')']
  have hvalue := congrArg Prod.fst (evaluateKeeping_eq ⟨2, .right⟩ ['(', '(', '1', ')', ')'])
  rw [hcourse] at hvalue
  obtain rfl : threshold = 2 := (hheight 2 _ hvalue).trans (congrArg Tree.height htree)
  exact ⟨2, hcount, rfl, (hbelow 1 (by decide)).1, habove 2 1024 (by decide) (by decide)⟩

end Calculator
