import Calculator.Proofs.Recognition

/-!
# Consistency of the pass

What the pass keeps of a text agrees with the text at every moment, also between two phases that
hand a character on: a parenthesis is closed only where one is open, none is open outside a group,
and no character is shown to more than three phases. Where a level may end, what has been kept is
enough to say which level it is (`Progress.Fits`), so no report is left but the one on a text of
blanks (`Progress.shown_consistent`).
-/

namespace Calculator

variable {assoc : Associativity} {before text : Text} {c : Char} {n position : Nat}
  {p next : Progress}

-- ---------------------------------------------------------------------------
-- A character handed on
-- ---------------------------------------------------------------------------

namespace Progress

/-- After `before` the character has been handed on `n` times, and is shown to this progress. -/
inductive Shown (assoc : Associativity) (before : Text) (c : Char) : Nat → Progress → Prop
  | first : Shown assoc before c 0 (through assoc .initial 0 before)
  | again {n : Nat} {p next : Progress} : Shown assoc before c n p →
      react assoc p (Text.size before) c = .handedOn next → Shown assoc before c (n + 1) next

/-- The progresses that a character can be shown to, by how often it has been handed on. -/
inductive Awaits (c : Char) : Nat → Progress → Prop
  | first {p : Progress} {text : Text} : Reached p text → Awaits c 0 p
  | inGroup {pivot : Option Pivot} {operand : Option Operand} : c = '(' →
      Awaits c 1 ⟨.inGroup, 0, pivot, operand⟩
  | literalDue {pivot : Option Pivot} {operand : Option Operand} :
      Awaits c 1 ⟨.literalDue, 0, pivot, operand⟩
  | operator {pivot : Option Pivot} {operand : Option Operand} :
      Awaits c 1 ⟨.operator, 0, pivot, operand⟩
  | digits {pivot : Option Pivot} {operand : Option Operand} : c.isDigit = true →
      Awaits c 2 ⟨.wholePart, 0, pivot, operand⟩

theorem Awaits.again (h : Awaits c n p) (hnext : HandsOn position c p next) :
    Awaits c (n + 1) next := by
  cases h with
  | first h =>
    cases hnext with
    | toGroup hc =>
      obtain rfl := h.depth_eq_zero (by simp) (by simp)
      exact .inGroup hc
    | toLiteral _ =>
      obtain rfl := h.depth_eq_zero (by simp) (by simp)
      exact .literalDue
    | toDigits _ => exact absurd rfl h.phase_ne_literalDue
    | toOperator hphase _ =>
      obtain rfl := h.depth_eq_zero (by rcases hphase with rfl | rfl | rfl <;> simp)
        (by rcases hphase with rfl | rfl | rfl <;> simp)
      exact .operator
  | inGroup _ => exact absurd hnext.rank_lt (Nat.not_lt_zero _)
  | literalDue =>
    cases hnext with
    | toDigits hc => exact .digits hc
    | toOperator hphase _ => simp at hphase
  | operator => exact absurd hnext.rank_lt (Nat.not_lt_zero _)
  | digits hc =>
    cases hnext with
    | toOperator _ hop =>
      -- A digit is no operator, so the whole part takes it.
      obtain ⟨op, hop⟩ := Option.isSome_iff_exists.mp hop
      rw [Operator.ofChar?_eq_some_iff.mp hop, isDigit_symbol] at hc
      contradiction

theorem Shown.awaits (h : Shown assoc before c n p) : Awaits c n p := by
  induction h with
  | first => exact .first (reached_through assoc before)
  | again _ hreact ih => exact ih.again (handsOn_of_react hreact)

theorem Awaits.lt_three (h : Awaits c n p) : n < 3 := by
  cases h <;> decide

theorem Awaits.depth_pos (h : Awaits c n p) (hgroup : p.phase = .inGroup) (hc : c = ')') :
    0 < p.depth := by
  cases h with
  | first h => exact h.depth_pos hgroup
  | inGroup hopen =>
    subst hc
    contradiction
  | _ => contradiction

theorem Awaits.depth_eq_zero (h : Awaits c n p) (hgroup : p.phase ≠ .inGroup)
    (hrejected : p.phase ≠ .rejected) : p.depth = 0 := by
  cases h with
  | first h => exact h.depth_eq_zero hgroup hrejected
  | _ => rfl

theorem Shown.exists_taken (h : Shown assoc before c n p) :
    ∃ m q, Shown assoc before c m q ∧
      react assoc q (Text.size before) c = .taken (consume assoc p (Text.size before) c) := by
  induction hr : p.phase.rank using Nat.strongRecOn generalizing n p with
  | ind r ih =>
    cases hreact : react assoc p (Text.size before) c with
    | taken next => exact ⟨n, p, h, by rw [hreact, consume_of_taken hreact]⟩
    | handedOn next =>
      rw [consume_of_handedOn next hreact]
      exact ih _ (hr ▸ rank_lt_of_react hreact) (h.again hreact) rfl

theorem through_concat (assoc : Associativity) (before : Text) (c : Char) :
    through assoc .initial 0 (before ++ [c]) =
      consume assoc (through assoc .initial 0 before) (Text.size before) c := by
  rw [through_append, through_cons, through_nil, Nat.zero_add]

-- ---------------------------------------------------------------------------
-- The end of a level
-- ---------------------------------------------------------------------------

/-- What has been kept of a text tells which level it is. With a pivot the text can be cut on both
sides of it; with an operand alone, the literal can be read or the group unwrapped; and with nothing
the text is blank. -/
def Fits (p : Progress) (text : Text) : Prop :=
  match p.pivot, p.operand with
  | some pivot, _ => ∃ lhs rhs,
      Text.cut? pivot.position text = some (lhs, pivot.operator.symbol :: rhs) ∧
        Text.cut? (pivot.position + pivot.operator.symbol.utf8Size) text =
          some (lhs ++ [pivot.operator.symbol], rhs)
  | none, some (.literal span) => ∃ x, span.value text = .ok x
  | none, some .group => ∃ inner, Text.unwrap? text = some inner
  | none, none => text.isAllBlank = true

theorem fits_cut (phase : Phase) (depth : Nat) (operand : Option Operand) (lhs : Text)
    (op : Operator) (rhs : Text) :
    Fits ⟨phase, depth, some ⟨Text.size lhs, op⟩, operand⟩ (lhs ++ op.symbol :: rhs) := by
  refine ⟨lhs, rhs, Text.cut?_size_append lhs _, ?_⟩
  rw [Text.cut?_eq_some_iff]
  simp

theorem fits_through_single (h : Term text ∨ text.isAllBlank) :
    Fits (through assoc .initial 0 text) text := by
  rw [initial]
  rcases h with h | hblank
  · cases h with
    | literal hb hn ha =>
      obtain ⟨phase, span, hrun, -, hvalue⟩ := through_literal hb hn ha
      rw [hrun]
      exact ⟨_, hvalue rfl⟩
    | group hb hi ha =>
      obtain ⟨phase, hrun, -⟩ := through_group_blank hb hi ha
      rw [hrun]
      exact ⟨_, Text.unwrap?_group hb ha⟩
  · rw [through_operandDue_blank hblank]
    exact hblank

theorem fits_through (h : (through assoc .initial 0 text).mayEnd = true) :
    Fits (through assoc .initial 0 text) text := by
  obtain ⟨⟨links, last⟩, hc, rfl⟩ := (reached_through assoc text).exists_chain h
  by_cases hlinks : links = []
  · subst hlinks
    exact fits_through_single hc.last
  · obtain ⟨before, a, op, after, rfl, hp⟩ := exists_pivot assoc hlinks
    obtain ⟨phase, begun, hrun, -⟩ := through_cut hc hp
    rw [hrun, Chain.text_cut]
    exact fits_cut ..

theorem Fits.exists_level (h : Fits p text) (hend : p.mayEnd = true)
    (hblank : text.isAllBlank = false) : ∃ level, p.level text = .ok level := by
  obtain ⟨phase, depth, pivot, operand⟩ := p
  rw [level, if_pos hend]
  cases pivot with
  | some pivot =>
    obtain ⟨lhs, rhs, hcut, -⟩ := h
    simp only [hcut]
    exact ⟨_, rfl⟩
  | none =>
    cases operand with
    | none =>
      have hall : text.isAllBlank = true := h
      rw [hall] at hblank
      contradiction
    | some operand =>
      cases operand with
      | literal span =>
        obtain ⟨x, hx⟩ := h
        simp only [hx]
        exact ⟨_, rfl⟩
      | group =>
        obtain ⟨inner, hinner⟩ := h
        simp only [hinner]
        exact ⟨_, rfl⟩

/-- Whenever a character is shown to a phase, it is for the third time at most; a closing
parenthesis finds one open in its group; and outside groups none is open. The character is taken at
last. At the end of a text that may end there, what has been kept fits the text, and only blanks
are no level. -/
theorem shown_consistent (assoc : Associativity) :
    (∀ before c n p, Shown assoc before c n p →
        n < 3 ∧ (p.phase = .inGroup → c = ')' → 0 < p.depth) ∧
          (p.phase ≠ .inGroup → p.phase ≠ .rejected → p.depth = 0)) ∧
      (∀ before c, ∃ n p, Shown assoc before c n p ∧
        react assoc p (Text.size before) c =
          .taken (through assoc .initial 0 (before ++ [c]))) ∧
      ∀ text, (through assoc .initial 0 text).mayEnd = true →
        Fits (through assoc .initial 0 text) text ∧
          (text.isAllBlank = false → ∃ level, Level.ofText assoc text = .ok level) := by
  refine ⟨fun before c n p h => ?_, fun before c => ?_, fun text h => ?_⟩
  · have hawaits := h.awaits
    exact ⟨hawaits.lt_three, hawaits.depth_pos, hawaits.depth_eq_zero⟩
  · rw [through_concat]
    exact Shown.first.exists_taken
  · have hfits := fits_through h
    exact ⟨hfits, hfits.exists_level h⟩

theorem shown_consistent_noBreakSpace :
    (Shown .right ['('] ')' 0 ⟨.inGroup, 1, none, some .group⟩ ∧ 0 < 1) ∧
      (Shown .right [] '7' 2 ⟨.wholePart, 0, none, some (.literal (.startAt 0))⟩ ∧ 2 < 3) ∧
      (through .right .initial 0 ['\u00A0', '(', 'x', ')', '+', ' ']).mayEnd = true ∧
      ∃ lhs rhs, Text.cut? 5 ['\u00A0', '(', 'x', ')', '+', ' '] = some (lhs, '+' :: rhs) := by
  obtain ⟨hshown, -, hends⟩ := shown_consistent .right
  have hopen : through .right .initial 0 ['('] = ⟨.inGroup, 1, none, some .group⟩ := by
    decide +kernel
  have hclose : Shown .right ['('] ')' 0 ⟨.inGroup, 1, none, some .group⟩ := hopen ▸ .first
  have hdigit : Shown .right [] '7' 2 ⟨.wholePart, 0, none, some (.literal (.startAt 0))⟩ :=
    .again (.again .first rfl) rfl
  have hend : (through .right .initial 0 ['\u00A0', '(', 'x', ')', '+', ' ']).mayEnd = true := by
    decide +kernel
  have hpivot : (through .right .initial 0 ['\u00A0', '(', 'x', ')', '+', ' ']).pivot =
      some ⟨5, .add⟩ := by
    decide +kernel
  have hfits := (hends _ hend).1
  rw [Fits, hpivot] at hfits
  obtain ⟨lhs, rhs, hcut, -⟩ := hfits
  exact ⟨⟨hclose, (hshown _ _ _ _ hclose).2.1 rfl rfl⟩, ⟨hdigit, (hshown _ _ _ _ hdigit).1⟩,
    hend, lhs, rhs, hcut⟩

end Progress

end Calculator
