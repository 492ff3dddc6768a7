import Calculator.Proofs.Course

/-!
# The grammar of expressions

The texts that have a value are those of a grammar: operands between blanks with operators
between them, an operand being a numeral or an expression in parentheses. Every other text is
malformed (`evaluate_ok_iff_isExpression`).
-/

namespace Calculator

mutual

inductive IsOperand : Text → Prop
  | numeral {body : Text} : Numeral body → IsOperand body
  | group {inner : Text} : IsExpression inner → IsOperand ('(' :: inner ++ [')'])

inductive IsExpression : Text → Prop
  | operand {before a after : Text} : before.isAllBlank → IsOperand a → after.isAllBlank →
      IsExpression (before ++ a ++ after)
  | operation {before a after rest : Text} {op : Operator} : before.isAllBlank → IsOperand a →
      after.isAllBlank → IsExpression rest →
      IsExpression (before ++ a ++ after ++ op.symbol :: rest)

end

variable {assoc : Associativity} {before inner after text : Text}

-- ---------------------------------------------------------------------------
-- From the grammar to the tree
-- ---------------------------------------------------------------------------

structure Sound (assoc : Associativity) (text : Text) : Prop where
  term : Term text
  report : (Tree.ofText assoc text).report? = none

def HasSoundChain (assoc : Associativity) (text : Text) : Prop :=
  ∃ c : Chain Text, c.text = text ∧ ∀ a ∈ c.operands, Sound assoc a

theorem HasSoundChain.wellFormed (h : HasSoundChain assoc text) :
    ∃ c : Chain Text, c.text = text ∧ c.WellFormed ∧ (Tree.ofText assoc c.text).report? = none := by
  obtain ⟨c, htext, hsound⟩ := h
  have hc : c.WellFormed := by
    refine ⟨fun link hlink => (hsound link.operand ?_).term, .inl (hsound c.last ?_).term⟩
    · exact List.mem_append_left _ (List.mem_map_of_mem hlink)
    · exact List.mem_append_right _ (List.mem_singleton_self _)
  refine ⟨c, htext, hc, ?_⟩
  rw [Tree.report?_ofText_chain assoc hc, List.findSome?_eq_none_iff]
  exact fun a ha => (hsound a ha).report

theorem HasSoundChain.single (h : Sound assoc text) : HasSoundChain assoc text := by
  refine ⟨⟨[], text⟩, rfl, fun a ha => ?_⟩
  rw [List.mem_singleton.mp ha]
  exact h

theorem HasSoundChain.cons {a rest : Text} (op : Operator) (h : Sound assoc a)
    (hrest : HasSoundChain assoc rest) : HasSoundChain assoc (a ++ op.symbol :: rest) := by
  obtain ⟨c, rfl, hsound⟩ := hrest
  refine ⟨⟨⟨a, op⟩ :: c.links, c.last⟩, Chain.text_cons .., fun x hx => ?_⟩
  rcases List.mem_cons.mp hx with rfl | hx
  · exact h
  · exact hsound x hx

theorem Sound.numeral {body : Text} (hb : before.isAllBlank) (hn : Numeral body)
    (ha : after.isAllBlank) : Sound assoc (before ++ body ++ after) := by
  refine ⟨.literal hb hn ha, ?_⟩
  rw [Tree.ofText_numeral assoc hb hn ha]
  rfl

theorem Sound.group (hb : before.isAllBlank) (h : HasSoundChain assoc inner)
    (ha : after.isAllBlank) : Sound assoc (before ++ ('(' :: inner ++ [')']) ++ after) := by
  obtain ⟨c, rfl, hwf, hreport⟩ := h.wellFormed
  have htext : before ++ ('(' :: c.text ++ [')']) ++ after =
      before ++ '(' :: c.text ++ ')' :: after := by simp
  rw [htext]
  refine ⟨.group hb hwf.balanced ha, ?_⟩
  rw [Tree.ofText_parenthesised assoc hb hwf.balanced ha]
  exact hreport

mutual

theorem IsOperand.sound : ∀ {before a after : Text}, IsOperand a → before.isAllBlank →
    after.isAllBlank → Sound assoc (before ++ a ++ after)
  | _, _, _, .numeral hn, hb, ha => .numeral hb hn ha
  | _, _, _, .group h, hb, ha => .group hb h.hasSoundChain ha

theorem IsExpression.hasSoundChain : ∀ {text : Text}, IsExpression text →
    HasSoundChain assoc text
  | _, .operand hb h ha => .single (h.sound hb ha)
  | _, .operation hb h ha hrest => .cons _ (h.sound hb ha) hrest.hasSoundChain

end

-- ---------------------------------------------------------------------------
-- From the tree to the grammar
-- ---------------------------------------------------------------------------

theorem Term.exists_operand (h : Term text) (hreport : (Tree.ofText assoc text).report? = none)
    (hinner : ∀ before inner after, text = before ++ '(' :: inner ++ ')' :: after →
      (Tree.ofText assoc inner).report? = none → IsExpression inner) :
    ∃ before a after : Text, text = before ++ a ++ after ∧ before.isAllBlank ∧ IsOperand a ∧
      after.isAllBlank := by
  cases h with
  | literal hb hn ha => exact ⟨_, _, _, rfl, hb, .numeral hn, ha⟩
  | @group before inner after hb hi ha =>
    rw [Tree.ofText_parenthesised assoc hb hi ha] at hreport
    exact ⟨before, '(' :: inner ++ [')'], after, by simp, hb,
      .group (hinner before inner after rfl hreport), ha⟩

theorem isExpression_of_chain {c : Chain Text}
    (h : ∀ text ∈ c.operands, ∃ before a after : Text, text = before ++ a ++ after ∧
      before.isAllBlank ∧ IsOperand a ∧ after.isAllBlank) : IsExpression c.text := by
  obtain ⟨links, last⟩ := c
  induction links with
  | nil =>
    obtain ⟨before, a, after, rfl, hb, hop, ha⟩ := h last (List.mem_singleton_self last)
    exact .operand hb hop ha
  | cons link links ih =>
    obtain ⟨text, op⟩ := link
    obtain ⟨before, a, after, rfl, hb, hop, ha⟩ := h text (List.mem_cons_self ..)
    rw [Chain.text_cons]
    exact .operation hb hop ha (ih fun x hx => h x (List.mem_cons_of_mem _ hx))

theorem isExpression_of_report? (h : (Tree.ofText assoc text).report? = none) :
    IsExpression text := by
  induction text using Level.chainInduction assoc with
  | malformed text herror =>
    rw [Tree.ofText_of_error herror] at h
    contradiction
  | chain c hc _ ih =>
    rw [Tree.report?_ofText_chain assoc hc, List.findSome?_eq_none_iff] at h
    refine isExpression_of_chain fun a ha => ?_
    rcases hc.operand ha with hterm | hblank
    · refine hterm.exists_operand (h a ha) ?_
      rintro before inner after rfl hreport
      exact ih before inner after ha hreport
    · have hreport := h a ha
      rw [Tree.ofText_blank assoc hblank] at hreport
      contradiction

theorem isExpression_iff : IsExpression text ↔ (Tree.ofText assoc text).report? = none := by
  refine ⟨fun h => ?_, isExpression_of_report?⟩
  obtain ⟨c, rfl, -, hreport⟩ := (@IsExpression.hasSoundChain assoc _ h).wellFormed
  exact hreport

/-- The texts with a value are the expressions, and every other text is malformed. No level closes
a parenthesis that is not open, so its depth is never counted below zero. -/
theorem evaluate_ok_iff_isExpression {σ : Type} {settings : Settings} {text : Text}
    (hsize : text.size ≤ settings.maxDepth) (trail : Trail σ) :
    ((∃ x, (trail.run (evaluate settings none text)).1 = .ok x) ↔ IsExpression text) ∧
      (¬ IsExpression text →
        ∃ report, (trail.run (evaluate settings none text)).1 = .error (.malformed report)) ∧
      ∀ beginning,
        (Progress.through settings.associativity .initial 0 beginning).phase = .inGroup →
          0 < (Progress.through settings.associativity .initial 0 beginning).depth := by
  rw [@isExpression_iff settings.associativity]
  refine ⟨exists_evaluate_iff hsize trail, ?_, ?_⟩
  · intro h
    obtain ⟨e, he⟩ := Option.ne_none_iff_exists'.mp h
    exact ⟨⟨e⟩, (evaluate_eq_malformed_iff hsize trail).mpr he⟩
  · intro beginning
    exact (reached_through _ beginning).depth_pos

/-- A sign after an operator belongs to a literal. -/
theorem evaluate_ok_iff_isExpression_sign :
    Text.size ['1', '-', '-', '2'] ≤ 4 ∧
      (∃ x, (Trail.run ⟨(), ⟨0, #[]⟩⟩ (evaluate ⟨4, .left⟩ none ['1', '-', '-', '2'])).1 = .ok x) ∧
      IsExpression ['1', '-', '-', '2'] := by
  have hone : IsOperand ['1'] := .numeral (.digit rfl)
  have htwo : IsOperand ['-', '2'] := .numeral (.signed (.inr rfl) (.whole rfl (by simp)))
  have h : IsExpression ['1', '-', '-', '2'] :=
    @IsExpression.operation [] _ [] _ .sub rfl hone rfl (@IsExpression.operand [] _ [] rfl htwo rfl)
  have hsize : Text.size ['1', '-', '-', '2'] ≤ 4 := by decide
  exact ⟨hsize, (evaluate_ok_iff_isExpression hsize ⟨(), ⟨0, #[]⟩⟩).1.mpr h, h⟩

end Calculator
