import Calculator.Proofs.Substitution

/-!
# What a group holds

A level does not look into its groups. If one balanced text in parentheses gives way to another,
the level is cut at the same operator, or it is the same group around the place where the two
differ, or it is malformed as before (`Level.ofText_refilled`).
-/

namespace Calculator

/-- The second level is the first one with `t'` for `t` in a pair of parentheses, where `p` stands
before the pair and `q` after it. -/
inductive Level.Refilled (p q t t' : Text) : Level → Level → Prop
  | whole : p.isAllBlank → q.isAllBlank → Refilled p q t t' (.group t) (.group t')
  | inside {before head tail after : Text} : before.isAllBlank → after.isAllBlank →
      p = before ++ '(' :: head → q = tail ++ ')' :: after →
      Refilled p q t t' (.group (head ++ '(' :: t ++ ')' :: tail))
        (.group (head ++ '(' :: t' ++ ')' :: tail))
  | left {tail rhs : Text} {op : Operator} : q = tail ++ op.symbol :: rhs →
      Refilled p q t t' (.binary (p ++ '(' :: t ++ ')' :: tail) op rhs)
        (.binary (p ++ '(' :: t' ++ ')' :: tail) op rhs)
  | right {lhs head : Text} {op : Operator} : p = lhs ++ op.symbol :: head →
      Refilled p q t t' (.binary lhs op (head ++ '(' :: t ++ ')' :: q))
        (.binary lhs op (head ++ '(' :: t' ++ ')' :: q))

variable {assoc : Associativity} {p q t t' : Text}

theorem Chain.WellFormed.exists_refilled {c : Chain Text} (h : c.WellFormed) (ht : t.Balanced)
    (ht' : t'.Balanced) (htext : c.text = p ++ '(' :: t ++ ')' :: q) :
    ∃ d : Chain Text, d.WellFormed ∧ d.text = p ++ '(' :: t' ++ ')' :: q ∧
      d.links.map Link.operator = c.links.map Link.operator ∧ (Term c.last → Term d.last) := by
  have hu : Atomic ('(' :: t' ++ [')']) := .group ht'
  obtain ⟨d, rfl, hsnd, hall⟩ := exists_replaced h ht ('(' :: t' ++ [')']) htext
  refine ⟨d.map Prod.snd, h.replace ht hu hall, by simpa using hsnd, ?_, fun hlast => ?_⟩
  · simp [Chain.map, Link.map]
  · have hlast : Term d.last.1 := hlast
    rcases hall d.last (List.mem_append_right _ (List.mem_singleton_self _)) with heq | hr
    · rwa [heq] at hlast
    · exact hlast.replace ht hu hr

namespace Level

theorem Reads.exists_refilled {text : Text} {level : Level} (h : Reads assoc text level)
    (ht : t.Balanced) (ht' : t'.Balanced) (htext : text = p ++ '(' :: t ++ ')' :: q) :
    ∃ level', Reads assoc (p ++ '(' :: t' ++ ')' :: q) level' ∧ Refilled p q t t' level level' := by
  cases h with
  | literal hb hn ha => exact absurd ⟨p, q, htext, rfl⟩ (hn.not_replaced (u := []) hb ha)
  | @group before inner after hb hi ha =>
    rcases group_in_group hb hi ha ht htext with ⟨rfl, rfl, rfl⟩ | ⟨head, tail, rfl, rfl, rfl⟩
    · exact ⟨.group t', .group hb ht' ha, .whole hb ha⟩
    · have hinner := ht.replace (.group ht') hi
      have hgroup : Reads assoc _ _ := .group hb hinner ha
      exact ⟨_, by simpa using hgroup, .inside hb ha rfl rfl⟩
  | @binary before after a last op hc hp =>
    obtain ⟨hl, hr⟩ := hc.cut
    rw [Chain.text_cut] at htext
    rcases group_in_append (hl.openAfter? 0) (symbol_ne_open op) ht htext with
      ⟨tail, hleft, rfl⟩ | ⟨head, rfl, hright⟩
    · obtain ⟨⟨before', a'⟩, hd, hdtext, hops, hlast⟩ := hl.exists_refilled ht ht' hleft
      have ha : Term a := hc.links ⟨a, op⟩ (by simp)
      have hreads := Reads.binary (hd.join op (hlast ha) hr) (hp.of_operators hops rfl)
      rw [Chain.text_cut, hdtext] at hreads
      rw [hleft]
      exact ⟨_, by simpa using hreads, .left rfl⟩
    · obtain ⟨⟨after', last'⟩, hd, hdtext, hops, -⟩ := hr.exists_refilled ht ht' hright
      have ha : Term a := hc.links ⟨a, op⟩ (by simp)
      have hreads := Reads.binary (hl.join op ha hd) (hp.of_operators rfl hops)
      rw [Chain.text_cut, hdtext] at hreads
      rw [hright]
      exact ⟨_, by simpa using hreads, .right rfl⟩

/-- What stands in a group has no influence on how the level around it is read, in any place of any
text. -/
theorem ofText_refilled (assoc : Associativity) (p q : Text) (ht : t.Balanced)
    (ht' : t'.Balanced) :
    (ofText assoc (p ++ '(' :: t ++ ')' :: q) = .error ⟨p ++ '(' :: t ++ ')' :: q⟩ ∧
        ofText assoc (p ++ '(' :: t' ++ ')' :: q) = .error ⟨p ++ '(' :: t' ++ ')' :: q⟩) ∨
      ∃ level level', ofText assoc (p ++ '(' :: t ++ ')' :: q) = .ok level ∧
        ofText assoc (p ++ '(' :: t' ++ ')' :: q) = .ok level' ∧
        Refilled p q t t' level level' := by
  cases h : ofText assoc (p ++ '(' :: t ++ ')' :: q) with
  | ok level =>
    obtain ⟨level', hreads, hrefilled⟩ := (ofText_eq_ok_iff.mp h).exists_refilled ht ht' rfl
    exact .inr ⟨level, level', rfl, hreads.ofText_eq, hrefilled⟩
  | error report =>
    cases h' : ofText assoc (p ++ '(' :: t' ++ ')' :: q) with
    | ok level' =>
      -- Then the first text is read as well, since `t` may be put back.
      obtain ⟨level, hreads, -⟩ := (ofText_eq_ok_iff.mp h').exists_refilled ht' ht rfl
      rw [hreads.ofText_eq] at h
      contradiction
    | error report' =>
      rw [eq_of_ofText_error h, eq_of_ofText_error h']
      exact .inl ⟨rfl, rfl⟩

theorem ofText_refilled_sum :
    Text.Balanced ['+', 'é'] ∧ Text.Balanced ['(', ')', '7', ' ', '7'] ∧
      ofText .right ['1', '*', '(', '+', 'é', ')', '+', '2'] =
        .ok (.binary ['1', '*', '(', '+', 'é', ')'] .add ['2']) ∧
      ofText .right ['1', '*', '(', '(', ')', '7', ' ', '7', ')', '+', '2'] =
        .ok (.binary ['1', '*', '(', '(', ')', '7', ' ', '7', ')'] .add ['2']) ∧
      Refilled ['1', '*'] ['+', '2'] ['+', 'é'] ['(', ')', '7', ' ', '7']
        (.binary ['1', '*', '(', '+', 'é', ')'] .add ['2'])
        (.binary ['1', '*', '(', '(', ')', '7', ' ', '7', ')'] .add ['2']) := by
  have hsum {t : Text} (ht : t.Balanced) :
      ofText .right (['1', '*'] ++ '(' :: t ++ ')' :: ['+', '2']) =
        .ok (.binary (['1', '*'] ++ '(' :: t ++ [')']) .add ['2']) := by
    have hdigit {c : Char} (h : c.isDigit = true) : Term [c] := (Numeral.digit h).term
    have hterm : Term ('(' :: t ++ [')']) := @Term.group [] t [] rfl ht rfl
    have hc : Chain.WellFormed ⟨[⟨['1'], .mul⟩, ⟨'(' :: t ++ [')'], .add⟩], ['2']⟩ :=
      ⟨by simpa [hdigit] using hterm, .inl (hdigit rfl)⟩
    have hcut := @ofText_cut .right [⟨['1'], .mul⟩] [] _ ['2'] .add hc ⟨by decide, by simp⟩
    simpa [Chain.text, Link.text, Operator.symbol] using hcut
  have ht : Text.Balanced ['+', 'é'] := by decide
  have ht' : Text.Balanced ['(', ')', '7', ' ', '7'] := by decide
  refine ⟨ht, ht', hsum ht, hsum ht', ?_⟩
  rcases ofText_refilled .right ['1', '*'] ['+', '2'] ht ht' with
    ⟨herror, -⟩ | ⟨level, level', hlevel, hlevel', hrefilled⟩
  · rw [hsum ht] at herror
    contradiction
  · rw [hsum ht] at hlevel
    rw [hsum ht'] at hlevel'
    obtain rfl := Except.ok.inj hlevel
    obtain rfl := Except.ok.inj hlevel'
    exact hrefilled

end Level

end Calculator
