import Calculator.Proofs.Recognition

/-!
# The shape of a level

The form of a level is said here by a grammar, without the pass: operands between blanks, an
operator between any two of them, and perhaps one more operator at the end. The operators are
named, because they decide what the level is. With any operator it is binary; with none it is the
literal or the group that its one operand is (`Level.ofText_by_form`).
-/

namespace Calculator

/-- The form of a level that has these operators, from left to right. -/
inductive LevelForm : List Operator → Text → Prop
  | single {a : Text} : Term a → LevelForm [] a
  | trailing {a blanks : Text} {op : Operator} : Term a → blanks.isAllBlank →
      LevelForm [op] (a ++ op.symbol :: blanks)
  | cons {a rest : Text} {op : Operator} {ops : List Operator} : Term a → LevelForm ops rest →
      LevelForm (op :: ops) (a ++ op.symbol :: rest)

variable {assoc : Associativity} {text : Text} {ops : List Operator}

-- ---------------------------------------------------------------------------
-- Forms and chains
-- ---------------------------------------------------------------------------

theorem Term.not_allBlank_append {a : Text} (h : Term a) (rest : Text) :
    (a ++ rest).isAllBlank = false := by
  rw [Bool.eq_false_iff]
  intro hblank
  have ha := (Text.isAllBlank_append.mp hblank).1
  rw [h.not_allBlank] at ha
  contradiction

theorem Chain.WellFormed.not_allBlank {link : Link Text} {links : List (Link Text)} {last : Text}
    (h : WellFormed ⟨link :: links, last⟩) :
    (Chain.text ⟨link :: links, last⟩).isAllBlank = false := by
  rw [text_cons link.operand link.operator]
  exact (h.links link (List.mem_cons_self ..)).not_allBlank_append _

theorem LevelForm.exists_chain (h : LevelForm ops text) :
    ∃ c : Chain Text, c.WellFormed ∧ c.text = text ∧ text.isAllBlank = false ∧
      c.links.map Link.operator = ops := by
  induction h with
  | @single a ha => exact ⟨⟨[], a⟩, Chain.wellFormed_single ha, rfl, ha.not_allBlank, rfl⟩
  | @trailing a blanks op ha hb =>
    refine ⟨⟨[⟨a, op⟩], blanks⟩, ⟨by simp [ha], .inr hb⟩, ?_, ha.not_allBlank_append _, rfl⟩
    exact Chain.text_cons a op [] blanks
  | @cons a rest op ops ha _ ih =>
    obtain ⟨⟨links, last⟩, hc, rfl, -, rfl⟩ := ih
    refine ⟨⟨⟨a, op⟩ :: links, last⟩, ⟨?_, hc.last⟩, Chain.text_cons .., ?_, rfl⟩
    · intro link hlink
      rcases List.mem_cons.mp hlink with rfl | hlink
      · exact ha
      · exact hc.links link hlink
    · exact ha.not_allBlank_append _

theorem Chain.WellFormed.levelForm {c : Chain Text} (h : c.WellFormed)
    (hblank : c.text.isAllBlank = false) : LevelForm (c.links.map Link.operator) c.text := by
  obtain ⟨links, last⟩ := c
  induction links with
  | nil =>
    rcases h.last with hterm | hb
    · exact .single hterm
    · rw [text_single, hb] at hblank
      contradiction
  | cons link links ih =>
    obtain ⟨a, op⟩ := link
    have ha : Term a := h.links ⟨a, op⟩ (List.mem_cons_self ..)
    rw [text_cons]
    cases links with
    | nil =>
      -- Blanks alone may come last here, and they are no form of their own.
      rcases h.last with hterm | hb
      · exact .cons ha (.single hterm)
      · exact .trailing ha hb
    | cons next links => exact .cons ha (ih h.tail h.tail.not_allBlank)

-- ---------------------------------------------------------------------------
-- Forms and levels
-- ---------------------------------------------------------------------------

namespace Level

theorem exists_iff_form :
    (∃ level, ofText assoc text = .ok level) ↔ ∃ ops, LevelForm ops text := by
  rw [exists_ofText_iff]
  constructor
  · rintro ⟨c, hc, rfl, hblank⟩
    exact ⟨_, hc.levelForm hblank⟩
  · rintro ⟨ops, h⟩
    obtain ⟨c, hc, htext, hblank, -⟩ := h.exists_chain
    exact ⟨c, hc, htext, hblank⟩

theorem exists_binary_iff :
    (∃ lhs op rhs, ofText assoc text = .ok (.binary lhs op rhs)) ↔
      ∃ ops, ops ≠ [] ∧ LevelForm ops text := by
  constructor
  · rintro ⟨lhs, op, rhs, h⟩
    obtain ⟨-, -, -, hblank⟩ := exists_chain h
    cases ofText_eq_ok_iff.mp h with
    | binary hc hp => exact ⟨_, by simp, hc.levelForm hblank⟩
  · rintro ⟨ops, hops, h⟩
    obtain ⟨⟨links, last⟩, hc, rfl, -, rfl⟩ := h.exists_chain
    obtain ⟨before, a, op, after, rfl, hp⟩ := exists_pivot assoc (mt List.map_eq_nil_iff.mpr hops)
    exact ⟨_, op, _, ofText_cut hc hp⟩

theorem ofText_eq_literal_iff {x : Number} :
    ofText assoc text = .ok (.literal x) ↔
      ∃ before body after : Text, before.isAllBlank ∧ after.isAllBlank ∧
        text = before ++ body ++ after ∧ ∃ hn : Numeral body, hn.value = x := by
  rw [ofText_eq_ok_iff]
  constructor
  · intro h
    cases h with
    | literal hb hn ha => exact ⟨_, _, _, hb, ha, rfl, hn, rfl⟩
  · rintro ⟨before, body, after, hb, ha, rfl, hn, rfl⟩
    exact .literal hb hn ha

theorem ofText_eq_group_iff {inner : Text} :
    ofText assoc text = .ok (.group inner) ↔
      inner.Balanced ∧ ∃ before after : Text, before.isAllBlank ∧ after.isAllBlank ∧
        text = before ++ '(' :: inner ++ ')' :: after := by
  rw [ofText_eq_ok_iff]
  constructor
  · intro h
    cases h with
    | group hb hi ha => exact ⟨hi, _, _, hb, ha, rfl⟩
  · rintro ⟨hi, before, after, hb, ha, rfl⟩
    exact .group hb hi ha

/-- A text is read as a level exactly if it has the form of one. It is binary exactly if the form
has an operator, a literal exactly if its one operand is a numeral, and a group exactly if its one
operand is a balanced text in parentheses, which is then the inside of the group. -/
theorem ofText_by_form (assoc : Associativity) (text : Text) :
    ((∃ level, ofText assoc text = .ok level) ↔ ∃ ops, LevelForm ops text) ∧
      ((∃ lhs op rhs, ofText assoc text = .ok (.binary lhs op rhs)) ↔
        ∃ ops, ops ≠ [] ∧ LevelForm ops text) ∧
      (∀ x, ofText assoc text = .ok (.literal x) ↔
        ∃ before body after : Text, before.isAllBlank ∧ after.isAllBlank ∧
          text = before ++ body ++ after ∧ ∃ hn : Numeral body, hn.value = x) ∧
      ∀ inner, ofText assoc text = .ok (.group inner) ↔
        inner.Balanced ∧ ∃ before after : Text, before.isAllBlank ∧ after.isAllBlank ∧
          text = before ++ '(' :: inner ++ ')' :: after :=
  ⟨exists_iff_form, exists_binary_iff, fun _ => ofText_eq_literal_iff, fun _ => ofText_eq_group_iff⟩

end Level

end Calculator
