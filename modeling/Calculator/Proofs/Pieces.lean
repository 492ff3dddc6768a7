import Calculator.Proofs.Ties

/-!
# Cutting a level again

A level is cut at its pivot, and its sides are levels to be cut in the same way. The operands of a
level are those of its two sides (`Level.operands_of_binary`), so no cut makes a new operand. What
has been read once can therefore be read again, and the only piece that cannot be is the blank rest
after an operator at the end (`Level.ofText_sides`).
-/

namespace Calculator

/-- What is left of a level after it has been cut at its pivot, and a side of it at its own pivot,
any number of times. -/
inductive Level.Piece (assoc : Associativity) (text : Text) : Text → Prop
  | whole : Piece assoc text text
  | left {piece lhs rhs : Text} {op : Operator} : Piece assoc text piece →
      ofText assoc piece = .ok (.binary lhs op rhs) → Piece assoc text lhs
  | right {piece lhs rhs : Text} {op : Operator} : Piece assoc text piece →
      ofText assoc piece = .ok (.binary lhs op rhs) → Piece assoc text rhs

variable {assoc : Associativity} {text piece lhs rhs : Text} {op : Operator}

theorem Text.isAllBlank_eq_false_iff :
    text.isAllBlank = false ↔ ∃ c ∈ text, isBlank c = false := by
  simp [isAllBlank]

namespace Level

-- ---------------------------------------------------------------------------
-- The chains of the two sides
-- ---------------------------------------------------------------------------

theorem wellFormed_ofText {level : Level} (h : ofText assoc text = .ok level) :
    (Chain.ofText text).WellFormed := by
  obtain ⟨c, hc, rfl, -⟩ := exists_chain h
  rwa [Chain.ofText_text hc]

theorem exists_ofText_of_wellFormed (h : (Chain.ofText text).WellFormed)
    (hblank : text.isAllBlank = false) : ∃ level, ofText assoc text = .ok level :=
  exists_ofText_iff.mpr ⟨Chain.ofText text, h, Chain.text_ofText text, hblank⟩

theorem wellFormed_sides (h : ofText assoc text = .ok (.binary lhs op rhs)) :
    (Chain.ofText lhs).WellFormed ∧ (Chain.ofText rhs).WellFormed := by
  cases ofText_eq_ok_iff.mp h with
  | binary hc _ =>
    obtain ⟨hl, hr⟩ := hc.cut
    rw [Chain.ofText_text hl, Chain.ofText_text hr]
    exact ⟨hl, hr⟩

theorem operands_of_binary (h : ofText assoc text = .ok (.binary lhs op rhs)) :
    (Chain.ofText text).operands = (Chain.ofText lhs).operands ++ (Chain.ofText rhs).operands := by
  cases ofText_eq_ok_iff.mp h with
  | binary hc _ =>
    obtain ⟨hl, hr⟩ := hc.cut
    rw [Chain.ofText_text hc, Chain.ofText_text hl, Chain.ofText_text hr, Chain.operands_cut]

theorem lhs_not_allBlank (h : ofText assoc text = .ok (.binary lhs op rhs)) :
    lhs.isAllBlank = false := by
  cases ofText_eq_ok_iff.mp h with
  | @binary before after a last op hc _ =>
    have ha : Term a := hc.links ⟨a, op⟩ (by simp)
    rw [Bool.eq_false_iff]
    intro hblank
    have hlast := (Text.isAllBlank_append.mp hblank).2
    rw [ha.not_allBlank] at hlast
    contradiction

-- ---------------------------------------------------------------------------
-- The pieces of a level
-- ---------------------------------------------------------------------------

/-- Every piece is a chain of operands of the whole level. -/
theorem Piece.operands_subset (h : Piece assoc text piece) (hc : (Chain.ofText text).WellFormed) :
    (Chain.ofText piece).WellFormed ∧
      (Chain.ofText piece).operands ⊆ (Chain.ofText text).operands := by
  induction h with
  | whole => exact ⟨hc, fun _ ha => ha⟩
  | left _ hcut ih =>
    refine ⟨(wellFormed_sides hcut).1, fun a ha => ih.2 ?_⟩
    rw [operands_of_binary hcut]
    exact List.mem_append_left _ ha
  | right _ hcut ih =>
    refine ⟨(wellFormed_sides hcut).2, fun a ha => ih.2 ?_⟩
    rw [operands_of_binary hcut]
    exact List.mem_append_right _ ha

theorem Piece.exists_trailing {level : Level} (h : Piece assoc text piece)
    (htext : ofText assoc text = .ok level) (hblank : piece.isAllBlank) :
    ∃ (head : Text) (op : Operator), text = head ++ op.symbol :: piece ∧ OperatorDue head := by
  obtain ⟨c, hc, rfl, hlevel⟩ := exists_chain htext
  have hsingle : Chain.ofText piece = ⟨[], piece⟩ :=
    @Chain.ofText_text ⟨[], piece⟩ ⟨by simp, .inr hblank⟩
  obtain ⟨-, hsubset⟩ := h.operands_subset (wellFormed_ofText htext)
  rw [Chain.ofText_text hc, hsingle] at hsubset
  have hmem : piece ∈ c.operands := hsubset (List.mem_singleton_self piece)
  obtain ⟨links, a, op, rfl⟩ := hc.exists_trailing hmem hblank hlevel
  exact ⟨_, op, Chain.text_cut links [] a piece op, hc.operatorDue_cut⟩

/-- The left side of a level is a level, and the right side is one unless it is blank. So however
often a level is cut, all its pieces are levels but for the blanks after an operator at its end. -/
theorem ofText_sides (h : ofText assoc text = .ok (.binary lhs op rhs)) :
    (∃ level, ofText assoc lhs = .ok level) ∧
      ((∃ level, ofText assoc rhs = .ok level) ↔ ∃ c ∈ rhs, isBlank c = false) ∧
      ∀ piece, Piece assoc text piece →
        (∃ level, ofText assoc piece = .ok level) ∨
          piece.isAllBlank ∧ ∃ (head : Text) (op' : Operator),
            text = head ++ op'.symbol :: piece ∧ OperatorDue head := by
  obtain ⟨hl, hr⟩ := wellFormed_sides h
  refine ⟨exists_ofText_of_wellFormed hl (lhs_not_allBlank h), ?_, ?_⟩
  · rw [← Text.isAllBlank_eq_false_iff]
    constructor
    · rintro ⟨level, hlevel⟩
      obtain ⟨-, -, -, hblank⟩ := exists_chain hlevel
      exact hblank
    · exact exists_ofText_of_wellFormed hr
  · intro piece hpiece
    cases hblank : piece.isAllBlank with
    | false =>
      obtain ⟨hwell, -⟩ := hpiece.operands_subset (wellFormed_ofText h)
      exact .inl (exists_ofText_of_wellFormed hwell hblank)
    | true => exact .inr ⟨rfl, hpiece.exists_trailing h hblank⟩

theorem ofText_sides_trailing :
    ofText .left ['(', 'x', ')', '*', '-', '2', '-', ' '] =
        .ok (.binary ['(', 'x', ')', '*', '-', '2'] .sub [' ']) ∧
      (∃ level, ofText .left ['(', 'x', ')', '*', '-', '2'] = .ok level) ∧
      ¬ ∃ level, ofText .left [' '] = .ok level := by
  have hgroup : Term ['(', 'x', ')'] := @Term.group [] ['x'] [] rfl (by decide) rfl
  have htwo : Term ['-', '2'] := (Numeral.signed (.inr rfl) (.whole rfl (by simp))).term
  have hc : Chain.WellFormed ⟨[⟨['(', 'x', ')'], .mul⟩, ⟨['-', '2'], .sub⟩], [' ']⟩ :=
    ⟨by simp [hgroup, htwo], .inr rfl⟩
  have hp : IsPivot .left [(⟨['(', 'x', ')'], .mul⟩ : Link Text)] .sub [] :=
    ⟨by decide, by simp⟩
  have hcut := ofText_cut hc hp
  obtain ⟨hl, hr, -⟩ := ofText_sides hcut
  refine ⟨hcut, hl, fun hblank => ?_⟩
  obtain ⟨c, hmem, hc⟩ := hr.mp hblank
  obtain rfl := List.mem_singleton.mp hmem
  contradiction

end Level

end Calculator
