import Calculator.Proofs.Check

/-!
# Ties

Two operators of one level are tied if they are equally strong and no weaker one stands between
them. The side on which operators associate decides ties and nothing else: a text without any has
one tree (`Tree.ofText_of_untied`), so it is evaluated in the same way on both sides
(`run_evaluate_of_untied`).
-/

namespace Calculator

variable {α : Type}

/-- An operator may come next: no parenthesis is open, and the last character that is not blank
can end an operand. -/
structure OperatorDue (before : Text) : Prop where
  closed : before.openAfter? 0 = some 0
  ended : ∃ (head : Text) (c : Char) (blanks : Text), before = head ++ c :: blanks ∧
    Place.endsOperand c = true ∧ blanks.isAllBlank

/-- Two operators of the level are equally strong, and none of its operators between them is
weaker. -/
def Text.Tied (level : Text) : Prop :=
  ∃ (before between after : Text) (op op' : Operator),
    level = before ++ op.symbol :: (between ++ op'.symbol :: after) ∧
    OperatorDue before ∧ OperatorDue (before ++ op.symbol :: between) ∧
    op.strength = op'.strength ∧
    ∀ (head tail : Text) (other : Operator), between = head ++ other.symbol :: tail →
      OperatorDue (before ++ op.symbol :: head) → op.strength ≤ other.strength

def Text.Untied (text : Text) : Prop := ∀ level, HasLevel text level → ¬ level.Tied

def Chain.Tied (c : Chain α) : Prop :=
  ∃ before x between y after, c.links = before ++ x :: (between ++ y :: after) ∧
    x.operator.strength = y.operator.strength ∧
    ∀ link ∈ between, x.operator.strength ≤ link.operator.strength

-- ---------------------------------------------------------------------------
-- The place before an operator
-- ---------------------------------------------------------------------------

namespace Place

def through (p : Place) (text : Text) : Place := text.foldl after p

theorem through_append (p : Place) (a b : Text) :
    p.through (a ++ b) = (p.through a).through b := List.foldl_append ..

theorem after_symbol (op : Operator) : after ⟨0, true⟩ op.symbol = start := by
  cases op <;> rfl

theorem depth_through {p : Place} {text : Text} {d : Nat} (h : text.openAfter? p.depth = some d) :
    (p.through text).depth = d := by
  induction text generalizing p with
  | nil => exact Option.some.inj h
  | cons c rest ih =>
    refine ih (p := p.after c) ?_
    by_cases hopen : c = '('
    · subst hopen
      rwa [Text.openAfter?_open] at h
    by_cases hclose : c = ')'
    · subst hclose
      obtain ⟨depth, ended⟩ := p
      cases depth with
      | zero => simp at h
      | succ depth => rwa [Text.openAfter?_close_succ] at h
    · rw [Text.openAfter?_other hopen hclose] at h
      simpa [after, hopen, hclose] using h

theorem ended_through_blank {blanks : Text} (h : blanks.isAllBlank) (p : Place) :
    (p.through blanks).ended = p.ended := by
  induction blanks generalizing p with
  | nil => rfl
  | cons c blanks ih =>
    obtain ⟨hc, hblanks⟩ := Text.isAllBlank_cons.mp h
    exact (ih hblanks (p.after c)).trans (if_pos hc)

theorem isBlank_of_endsOperand {c : Char} (h : endsOperand c = true) : isBlank c = false := by
  rw [Bool.eq_false_iff]
  intro hb
  simp [endsOperand, isDigit_eq_false_of_isBlank hb, ne_of_isBlank hb (x := '.') rfl,
    ne_of_isBlank hb (x := ')') rfl] at h

end Place

theorem OperatorDue.through {before : Text} (h : OperatorDue before) :
    Place.start.through before = ⟨0, true⟩ := by
  have hdepth : (Place.start.through before).depth = 0 := Place.depth_through h.closed
  obtain ⟨head, c, blanks, rfl, hc, hblanks⟩ := h.ended
  have hended : (Place.start.through (head ++ c :: blanks)).ended = true := by
    rw [Place.through_append]
    refine (Place.ended_through_blank hblanks _).trans ?_
    rw [Place.after, Place.isBlank_of_endsOperand hc]
    exact hc
  rw [← hdepth, ← hended]

theorem OperatorDue.through_tail {before tail : Text} {op : Operator} (h : OperatorDue before)
    (htail : OperatorDue (before ++ op.symbol :: tail)) :
    Place.start.through tail = ⟨0, true⟩ := by
  have hwhole := htail.through
  rw [Place.through_append, h.through] at hwhole
  change (Place.after ⟨0, true⟩ op.symbol).through tail = ⟨0, true⟩ at hwhole
  rwa [Place.after_symbol] at hwhole

theorem Numeral.exists_ending {body : Text} (h : Numeral body) :
    ∃ head c, body = head ++ [c] ∧ Place.endsOperand c = true := by
  have hunsigned {body : Text} (h : Unsigned body) :
      ∃ head c, body = head ++ [c] ∧ Place.endsOperand c = true := by
    rcases List.eq_nil_or_concat body with rfl | ⟨head, c, rfl⟩
    · exact absurd rfl h.ne_nil
    · rw [List.concat_eq_append] at h ⊢
      refine ⟨head, c, rfl, ?_⟩
      rcases h.mem (by simp : c ∈ head ++ [c]) with rfl | hc
      · rfl
      · simp [Place.endsOperand, hc]
  cases h with
  | unsigned h => exact hunsigned h
  | @signed sign body hs h =>
    obtain ⟨head, c, rfl, hc⟩ := hunsigned h
    exact ⟨sign :: head, c, rfl, hc⟩

theorem Term.exists_ending {text : Text} (h : Term text) :
    ∃ (head : Text) (c : Char) (blanks : Text), text = head ++ c :: blanks ∧
      Place.endsOperand c = true ∧ blanks.isAllBlank := by
  cases h with
  | @literal before body after hb hn ha =>
    obtain ⟨head, c, rfl, hc⟩ := hn.exists_ending
    exact ⟨before ++ head, c, after, by simp, hc, ha⟩
  | @group before inner after hb hi ha =>
    exact ⟨before ++ '(' :: inner, ')', after, by simp, rfl, ha⟩

namespace Chain

theorem not_tied_of_nodup {c : Chain α}
    (h : (c.links.map fun link => link.operator.strength).Nodup) : ¬ c.Tied := by
  rintro ⟨before, x, between, y, after, hlinks, heq, -⟩
  rw [hlinks, List.map_append, List.map_cons] at h
  have hx := (List.nodup_cons.mp (List.nodup_append.mp h).2.1).1
  exact hx (by simp [heq])

variable {c : Chain Text}

theorem WellFormed.operatorDue {links : List (Link Text)} {a : Text} (h : WellFormed ⟨links, a⟩)
    (ha : Term a) : OperatorDue (text ⟨links, a⟩) := by
  refine ⟨h.openAfter? 0, ?_⟩
  obtain ⟨head, c, blanks, rfl, hc, hblanks⟩ := ha.exists_ending
  exact ⟨links.flatMap Link.text ++ head, c, blanks, by simp [text], hc, hblanks⟩

theorem WellFormed.operatorDue_cut {before after : List (Link Text)} {a last : Text}
    {op : Operator} (h : WellFormed ⟨before ++ ⟨a, op⟩ :: after, last⟩) :
    OperatorDue (text ⟨before, a⟩) :=
  h.cut.1.operatorDue (h.links ⟨a, op⟩ (by simp))

theorem WellFormed.operatorDue_behind {before between after : List (Link Text)} {a b last : Text}
    {op op' : Operator}
    (h : WellFormed ⟨before ++ ⟨a, op⟩ :: (between ++ ⟨b, op'⟩ :: after), last⟩) :
    OperatorDue (text ⟨before, a⟩ ++ op.symbol :: text ⟨between, b⟩) := by
  rw [← List.cons_append, ← List.append_assoc] at h
  have hdue := h.operatorDue_cut
  rwa [text_cut] at hdue

/-- Splitting a text is splitting what stands on the two sides of one of its operators. -/
theorem split_join {p : Place} {piece before : Text} (h : p.through before = ⟨0, true⟩)
    (op : Operator) (rest : Text) :
    split p piece (before ++ op.symbol :: rest) =
      ⟨(split p piece before).links ++ ⟨(split p piece before).last, op⟩ :: (ofText rest).links,
        (ofText rest).last⟩ := by
  induction before generalizing p piece with
  | nil =>
    obtain rfl : p = ⟨0, true⟩ := h
    exact split_symbol op
  | cons c before ih =>
    cases hc : p.operator? c with
    | none =>
      rw [List.cons_append, split_of_none hc, split_of_none hc]
      exact ih h
    | some op' =>
      have hafter : p.after c = .start := by
        obtain ⟨depth, ended⟩ := p
        unfold Place.operator? at hc
        split at hc
        · rename_i hplace
          obtain ⟨rfl, rfl⟩ : depth = 0 ∧ ended = true := hplace
          rw [Operator.ofChar?_eq_some_iff.mp hc, Place.after_symbol]
        · contradiction
      have hrest : Place.start.through before = ⟨0, true⟩ := hafter ▸ h
      have hjoin : ofText (before ++ op.symbol :: rest) = _ := ih hrest
      rw [List.cons_append, split_of_some hc, split_of_some hc, hjoin]
      rfl

theorem WellFormed.exists_cut {before after : Text} {op : Operator} (h : c.WellFormed)
    (htext : c.text = before ++ op.symbol :: after)
    (hplace : Place.start.through before = ⟨0, true⟩) :
    ∃ links a rest, c.links = links ++ ⟨a, op⟩ :: rest ∧ text ⟨links, a⟩ = before ∧
      text ⟨rest, c.last⟩ = after := by
  have hsplit := ofText_text h
  rw [htext, ofText, split_join hplace] at hsplit
  subst hsplit
  exact ⟨_, _, _, rfl, text_ofText before, text_ofText after⟩

theorem WellFormed.exists_mem {head tail : Text} {other : Operator} (h : c.WellFormed)
    (htext : c.text = head ++ other.symbol :: tail)
    (hplace : Place.start.through head = ⟨0, true⟩) :
    ∃ link ∈ c.links, link.operator = other := by
  obtain ⟨links, b, rest, hlinks, -, -⟩ := h.exists_cut htext hplace
  exact ⟨⟨b, other⟩, by simp [hlinks], rfl⟩

theorem tied_iff (h : c.WellFormed) : c.text.Tied ↔ c.Tied := by
  obtain ⟨links, last⟩ := c
  constructor
  · rintro ⟨before, between, after, op, op', htext, hbefore, hbetween, heq, hweaker⟩
    have hplace := hbefore.through_tail hbetween
    obtain ⟨left, a, right, rfl, rfl, hright⟩ := h.exists_cut htext hbefore.through
    obtain ⟨inside, b, rest, rfl, rfl, -⟩ := h.cut.2.exists_cut hright hplace
    refine ⟨left, ⟨a, op⟩, inside, ⟨b, op'⟩, rest, rfl, heq, fun link hlink => ?_⟩
    -- Up to the operator of the link the text is that of a shorter chain.
    obtain ⟨head, tail, rfl⟩ := List.append_of_mem hlink
    rw [List.append_assoc, List.cons_append] at h
    exact hweaker _ _ _ (text_cut head tail link.operand b link.operator) h.operatorDue_behind
  · rintro ⟨before, ⟨a, op⟩, between, ⟨b, op'⟩, after, rfl, heq, hweaker⟩
    have hbefore := h.operatorDue_cut
    refine ⟨text ⟨before, a⟩, text ⟨between, b⟩, text ⟨after, last⟩, op, op', ?_, hbefore,
      h.operatorDue_behind, heq, ?_⟩
    · rw [← text_cut, ← text_cut]
    · intro head tail other htext hdue
      obtain ⟨link, hlink, rfl⟩ := h.cut.2.cut.1.exists_mem htext (hbefore.through_tail hdue)
      exact hweaker link hlink

-- ---------------------------------------------------------------------------
-- Chains without ties
-- ---------------------------------------------------------------------------

variable {before after : List (Link α)} {a last : α} {op : Operator}

theorem Tied.of_cut (h : Tied ⟨before, a⟩ ∨ Tied ⟨after, last⟩) :
    Tied ⟨before ++ ⟨a, op⟩ :: after, last⟩ := by
  rcases h with ⟨l₁, x, l₂, y, l₃, rfl, heq, hweaker⟩ | ⟨l₁, x, l₂, y, l₃, rfl, heq, hweaker⟩
  · exact ⟨l₁, x, l₂, y, l₃ ++ ⟨a, op⟩ :: after, by simp, heq, hweaker⟩
  · exact ⟨before ++ ⟨a, op⟩ :: l₁, x, l₂, y, l₃, by simp, heq, hweaker⟩

end Chain

theorem IsPivot.left_of_untied {before after : List (Link α)} {a last : α} {op : Operator}
    (h : IsPivot .right before op after)
    (huntied : ¬ Chain.Tied ⟨before ++ ⟨a, op⟩ :: after, last⟩) :
    IsPivot .left before op after := by
  have hbefore (link : Link α) (hl : link ∈ before) : op.strength < link.operator.strength := by
    simpa [Associativity.prefersLater] using h.ofBefore link hl
  have hafter (link : Link α) (hl : link ∈ after) : op.strength ≤ link.operator.strength := by
    simpa [Associativity.prefersLater] using h.ofAfter link hl
  constructor
  · intro link hl
    exact decide_eq_true (Nat.le_of_lt (hbefore link hl))
  · intro link hl
    refine decide_eq_false fun hle => huntied ?_
    obtain ⟨between, rest, rfl⟩ := List.append_of_mem hl
    refine ⟨before, ⟨a, op⟩, between, link, rest, rfl, Nat.le_antisymm (hafter link hl) hle, ?_⟩
    exact fun other ho => hafter other (List.mem_append_left _ ho)

-- ---------------------------------------------------------------------------
-- Trees and evaluations
-- ---------------------------------------------------------------------------

namespace Tree

theorem ofText_chain_of_untied {c : Chain Text} (h : c.WellFormed) (huntied : ¬ c.Tied)
    (hoperands : ∀ a ∈ c.operands, ofText .right a = ofText .left a) :
    ofText .right c.text = ofText .left c.text := by
  induction c using Chain.pivotInduction .right with
  | single a => exact hoperands a (List.mem_singleton_self a)
  | cut before a op after last hp ihl ihr =>
    obtain ⟨hl, hr⟩ := h.cut
    rw [Chain.operands_cut] at hoperands
    rw [ofText_chain h hp, ofText_chain h (hp.left_of_untied huntied),
      ihl hl (fun ht => huntied (.of_cut (.inl ht))) fun b hb =>
        hoperands b (List.mem_append_left _ hb),
      ihr hr (fun ht => huntied (.of_cut (.inr ht))) fun b hb =>
        hoperands b (List.mem_append_right _ hb)]

theorem ofText_of_untied {text : Text} (h : text.Untied) :
    ofText .right text = ofText .left text := by
  induction text using Level.chainInduction .right with
  | malformed text hright =>
    cases hleft : Level.ofText .left text with
    | error report => rw [ofText_of_error hright, ofText_of_error hleft]
    | ok level =>
      obtain ⟨level, hlevel⟩ :=
        Level.exists_ofText_iff.mpr (Level.exists_ofText_iff.mp ⟨level, hleft⟩)
      rw [hright] at hlevel
      contradiction
  | chain c hc _ ih =>
    have huntied : ¬ c.Tied := mt (Chain.tied_iff hc).mpr (h _ .whole)
    refine ofText_chain_of_untied hc huntied fun a ha => ?_
    rcases hc.operand ha with hterm | hblank
    · cases hterm with
      | literal hb hn hafter =>
        rw [ofText_numeral .right hb hn hafter, ofText_numeral .left hb hn hafter]
      | group hb hi hafter =>
        rw [ofText_parenthesised .right hb hi hafter, ofText_parenthesised .left hb hi hafter,
          ih _ _ _ ha fun level hlevel => h level (hlevel.of_mem hi ha)]
    · rw [ofText_blank .right hblank, ofText_blank .left hblank]

end Tree

/-- Where no level has a tie, all that an evaluation does is the same on both sides: its result,
the lines that its sink takes and the messages in its log. -/
theorem run_evaluate_of_untied {σ : Type} {text : Text} (h : text.Untied) (maxDepth : Nat)
    (sink : Option (Sink σ)) (trail : Trail σ) :
    trail.run (evaluate ⟨maxDepth, .right⟩ sink text) =
      trail.run (evaluate ⟨maxDepth, .left⟩ sink text) := by
  rw [evaluate_eq_perform, evaluate_eq_perform, Course.ofText, Course.ofText,
    Tree.ofText_of_untied h]

/-- A sign makes no tie, nor do operators of different levels. -/
theorem run_evaluate_of_untied_signs :
    Text.Untied ['1', '*', '-', '2', '-', '(', '3', '-', '4', ')'] ∧
      Trail.run ⟨#[], ⟨3, #[]⟩⟩ (evaluate ⟨8, .right⟩ (some Sink.collecting)
          ['1', '*', '-', '2', '-', '(', '3', '-', '4', ')']) =
        Trail.run ⟨#[], ⟨3, #[]⟩⟩ (evaluate ⟨8, .left⟩ (some Sink.collecting)
          ['1', '*', '-', '2', '-', '(', '3', '-', '4', ')']) := by
  have hdigit {c : Char} (h : c.isDigit = true) : Term [c] := (Numeral.digit h).term
  have hinner : Chain.WellFormed ⟨[⟨['3'], .sub⟩], ['4']⟩ :=
    ⟨by simp [hdigit], .inl (hdigit rfl)⟩
  have hwhole : Chain.WellFormed
      ⟨[⟨['1'], .mul⟩, ⟨['-', '2'], .sub⟩], ['(', '3', '-', '4', ')']⟩ := by
    have htwo : Term ['-', '2'] := (Numeral.signed (.inr rfl) (.whole rfl (by simp))).term
    exact ⟨by simp [hdigit, htwo], .inl (@Term.group [] ['3', '-', '4'] [] rfl (by decide) rfl)⟩
  have huntied : Text.Untied ['1', '*', '-', '2', '-', '(', '3', '-', '4', ')'] := by
    intro level hlevel
    cases hlevel with
    | whole => exact mt (Chain.tied_iff hwhole).mp (Chain.not_tied_of_nodup (by decide))
    | @between before level after hi htext =>
      simp only [List.append_assoc, List.cons_append, List.cons_eq_append_iff, List.cons.injEq,
        Char.reduceEq, List.nil_eq, List.append_eq_nil_iff, reduceCtorEq, false_and, and_false,
        true_and, false_or, or_false, exists_const] at htext
      obtain ⟨_, -, _, -, _, -, _, -, _, -, -, hclose⟩ := htext
      obtain ⟨rfl, -⟩ := hi.group_injective (by decide : Text.Balanced ['3', '-', '4']) hclose
      exact mt (Chain.tied_iff hinner).mp (Chain.not_tied_of_nodup (by decide))
  exact ⟨huntied, run_evaluate_of_untied huntied 8 (some Sink.collecting) ⟨#[], ⟨3, #[]⟩⟩⟩

end Calculator
