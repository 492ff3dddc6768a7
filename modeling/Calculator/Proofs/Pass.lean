import Calculator.Level
import Calculator.Proofs.Form
import Calculator.Proofs.Reading

/-!
# The pass over a well-formed level

A term takes the pass from one operand that is due to the end of that operand, and an operator
from there to the next one. So a level of one operand is that literal or group, and a level of
several is cut at its pivot (`ofText_cut`).
-/

namespace Calculator

variable {assoc : Associativity} {position depth : Nat} {pivot : Option Pivot}
  {operand : Option Operand} {span : Literal}

theorem utf8Size_of_isDigit {c : Char} (h : c.isDigit = true) : c.utf8Size = 1 := by
  rw [Char.utf8Size_eq_one_iff, UInt32.le_iff_toNat_le]
  have := (isDigit_iff.mp h).2
  simp only [Char.toNat] at this
  exact Nat.le_trans this (by decide)

namespace Progress

-- ---------------------------------------------------------------------------
-- Literals
-- ---------------------------------------------------------------------------

theorem consume_wholePart_digit {c : Char} (h : c.isDigit = true) :
    consume assoc ⟨.wholePart, depth, pivot, some (.literal span)⟩ position c =
      ⟨.wholePart, depth, pivot, some (.literal (span.digit position))⟩ := by
  rw [consume_wholePart, if_neg (ne_of_isDigit h (by decide)), if_pos h]

theorem consume_fractionPart_digit {c : Char} (h : c.isDigit = true) :
    consume assoc ⟨.fractionPart, depth, pivot, some (.literal span)⟩ position c =
      ⟨.fractionPart, depth, pivot, some (.literal (span.digit position))⟩ := by
  rw [consume_fractionPart, if_pos h]

theorem through_digits {phase : Phase} (hphase : phase = .wholePart ∨ phase = .fractionPart)
    {digits : Text} (hd : digits.isAllDigits) (negative : Bool) (start count : Nat) :
    through assoc ⟨phase, depth, pivot, some (.literal ⟨negative, start, position, count⟩)⟩
        position digits =
      ⟨phase, depth, pivot, some (.literal
        ⟨negative, start, position + Text.size digits, count + digits.length⟩)⟩ := by
  induction digits generalizing position count with
  | nil => rfl
  | cons c digits ih =>
    simp only [Text.isAllDigits, List.all_cons, Bool.and_eq_true] at hd
    have hstep : consume assoc
          ⟨phase, depth, pivot, some (.literal ⟨negative, start, position, count⟩)⟩ position c =
        ⟨phase, depth, pivot, some (.literal ⟨negative, start, position + 1, count + 1⟩)⟩ := by
      rcases hphase with rfl | rfl
      · exact consume_wholePart_digit hd.1
      · exact consume_fractionPart_digit hd.1
    rw [through_cons, hstep, utf8Size_of_isDigit hd.1, ih hd.2, Text.size_cons,
      utf8Size_of_isDigit hd.1, List.length_cons]
    simp only [Nat.add_assoc, Nat.add_comm 1]

theorem through_unsigned {body : Text} (h : Unsigned body) (assoc : Associativity)
    (depth position : Nat) (pivot : Option Pivot) (negative : Bool) :
    ∃ phase count,
      through assoc
          ⟨.wholePart, depth, pivot, some (.literal ⟨negative, position, position, 0⟩)⟩
          position body =
        ⟨phase, depth, pivot, some (.literal
          ⟨negative, position, position + Text.size body, count⟩)⟩ ∧
      (phase = .wholePart ∨ phase = .fractionPart) ∧ 0 < count := by
  rcases unsigned_iff.mp h with ⟨hd, hne⟩ | ⟨digits, places, hd, hp, hne, rfl⟩
  · refine ⟨.wholePart, body.length, ?_, .inl rfl, List.length_pos_iff.mpr hne⟩
    rw [through_digits (.inl rfl) hd, Nat.zero_add]
  · refine ⟨.fractionPart, digits.length + places.length, ?_, .inr rfl, ?_⟩
    · have hpoint : '.'.utf8Size = 1 := rfl
      rw [through_append, through_digits (.inl rfl) hd, through_cons, consume_wholePart, if_pos rfl]
      simp only [Literal.point, hpoint]
      rw [through_digits (.inr rfl) hp, Text.size_append, Text.size_cons, hpoint, Nat.zero_add]
      simp only [Nat.add_assoc]
    · rw [← List.length_append]
      exact List.length_pos_iff.mpr hne

theorem through_operandDue_unsigned {body : Text} (h : Unsigned body) :
    through assoc ⟨.operandDue, depth, pivot, operand⟩ position body =
      through assoc ⟨.wholePart, depth, pivot, some (.literal (.startAt position))⟩
        position body := by
  cases body with
  | nil => exact absurd rfl h.ne_nil
  | cons c rest =>
    rw [through_cons, through_cons]
    congr 1
    rcases h.mem (List.mem_cons_self ..) with rfl | hc
    · rw [consume_wholePart, consume_operandDue]
      simp [Literal.startAt, Literal.point]
    · rw [consume_wholePart_digit hc, consume_operandDue]
      simp [ne_of_isDigit hc, hc, Literal.startAt, Literal.digit]

end Progress

theorem Literal.value_eq {body : Text} (h : Unsigned body) (before after : Text) (negative : Bool)
    {count : Nat} (hcount : 0 < count) :
    Literal.value ⟨negative, Text.size before, Text.size before + Text.size body, count⟩
        (before ++ body ++ after) =
      .ok (if negative then (Numeral.unsigned h).value.negate else (Numeral.unsigned h).value) := by
  rw [Literal.value, if_pos (by simpa [hasDigits] using hcount), Text.span?_append,
    Option.bind_some, (Numeral.unsigned h).ofText?_eq]

theorem Numeral.value_plus {body : Text} (h : Unsigned body) :
    (Numeral.signed (.inl rfl) h).value = (Numeral.unsigned h).value := by
  rw [← Option.some_inj, ← Numeral.ofText?_eq, ← Numeral.ofText?_eq, h.ofText?]
  rfl

theorem Numeral.value_minus {body : Text} (h : Unsigned body) :
    (Numeral.signed (.inr rfl) h).value = (Numeral.unsigned h).value.negate := by
  have hu := (Numeral.unsigned h).ofText?_eq
  rw [h.ofText?] at hu
  rw [← Option.some_inj, ← Numeral.ofText?_eq, Number.ofText?, hu]
  rfl

namespace Progress

/-- A numeral leaves a literal that has its value, in any text with the numeral at that place. -/
theorem through_numeral {body : Text} (h : Numeral body) :
    ∃ phase span,
      through assoc ⟨.operandDue, depth, pivot, operand⟩ position body =
        ⟨phase, depth, pivot, some (.literal span)⟩ ∧
      (phase = .wholePart ∨ phase = .fractionPart) ∧ span.hasDigits = true ∧
      ∀ before after, Text.size before = position →
        span.value (before ++ body ++ after) = .ok h.value := by
  cases h with
  | unsigned h =>
    obtain ⟨phase, count, hrun, hphase, hcount⟩ :=
      through_unsigned h assoc depth position pivot false
    refine ⟨phase, _, (through_operandDue_unsigned h).trans hrun, hphase, ?_, ?_⟩
    · simpa [Literal.hasDigits] using hcount
    · rintro before after rfl
      simpa using Literal.value_eq h before after false hcount
  | @signed sign body hs h =>
    obtain ⟨phase, count, hrun, hphase, hcount⟩ :=
      through_unsigned h assoc depth (position + 1) pivot (sign = '-')
    have hopen : sign ≠ '(' := by rcases hs with rfl | rfl <;> decide
    have hone : sign.utf8Size = 1 := by rcases hs with rfl | rfl <;> rfl
    refine ⟨phase, ⟨sign = '-', position + 1, position + 1 + Text.size body, count⟩,
      ?_, hphase, ?_, ?_⟩
    · rw [through_cons, consume_operandDue, if_neg hopen, if_pos hs, hone, hrun]
    · simpa [Literal.hasDigits] using hcount
    · rintro before after rfl
      have hv := Literal.value_eq h (before ++ [sign]) after (sign = '-') hcount
      rw [Text.size_append, Text.size_cons, Text.size_nil, hone] at hv
      rcases hs with rfl | rfl
      · simpa [Numeral.value_plus h] using hv
      · simpa [Numeral.value_minus h] using hv

-- ---------------------------------------------------------------------------
-- Blanks and groups
-- ---------------------------------------------------------------------------

theorem through_operandDue_blank {blanks : Text} (h : blanks.isAllBlank) :
    through assoc ⟨.operandDue, depth, pivot, operand⟩ position blanks =
      ⟨.operandDue, depth, pivot, operand⟩ := by
  induction blanks generalizing position with
  | nil => rfl
  | cons c blanks ih =>
    obtain ⟨hc, hrest⟩ := Text.isAllBlank_cons.mp h
    have hstep : consume assoc ⟨.operandDue, depth, pivot, operand⟩ position c =
        ⟨.operandDue, depth, pivot, operand⟩ := by
      rw [consume_operandDue]
      simp [ne_of_isBlank hc, isDigit_eq_false_of_isBlank hc, hc, show isBlank '(' = false from rfl,
        show isBlank '+' = false from rfl, show isBlank '-' = false from rfl,
        show isBlank '.' = false from rfl]
    rw [through_cons, hstep, ih hrest]

theorem through_inGroup {inner : Text} {d e : Nat} (h : Text.openAfter? d inner = some e) :
    through assoc ⟨.inGroup, d + 1, pivot, some .group⟩ position inner =
      ⟨.inGroup, e + 1, pivot, some .group⟩ := by
  induction inner generalizing d position with
  | nil =>
    cases h
    rfl
  | cons c rest ih =>
    rw [through_cons, consume_inGroup]
    by_cases hopen : c = '('
    · subst hopen
      rw [Text.openAfter?_open] at h
      rw [if_pos rfl, ih h]
    by_cases hclose : c = ')'
    · subst hclose
      cases d with
      | zero => simp at h
      | succ d =>
        rw [Text.openAfter?_close_succ] at h
        simp only [if_neg hopen, if_pos, Nat.add_eq_right, Nat.add_eq_zero_iff, Nat.one_ne_zero,
          and_false, if_false, Nat.add_sub_cancel]
        exact ih h
    · rw [Text.openAfter?_other hopen hclose] at h
      rw [if_neg hopen, if_neg hclose, ih h]

theorem through_group {inner : Text} (h : inner.Balanced) :
    through assoc ⟨.operandDue, 0, pivot, operand⟩ position ('(' :: inner ++ [')']) =
      ⟨.operandDone, 0, pivot, some .group⟩ := by
  rw [List.cons_append, through_cons, consume_operandDue, if_pos rfl, through_append,
    through_inGroup (h.openAfter? 0), through_cons, consume_inGroup]
  simp

-- ---------------------------------------------------------------------------
-- Terms and links
-- ---------------------------------------------------------------------------

/-- An operand has been read and may end here. -/
inductive Ended : Progress → Prop
  | done {depth : Nat} {pivot : Option Pivot} {operand : Option Operand} :
      Ended ⟨.operandDone, depth, pivot, operand⟩
  | literal {phase : Phase} {depth : Nat} {pivot : Option Pivot} {span : Literal} :
      phase = .wholePart ∨ phase = .fractionPart → span.hasDigits = true →
      Ended ⟨phase, depth, pivot, some (.literal span)⟩

variable {p : Progress}

theorem Ended.mayEnd (h : Ended p) : p.mayEnd = true := by
  cases h with
  | done => rfl
  | literal hphase hd => rcases hphase with rfl | rfl <;> exact hd

theorem Ended.consume {c : Char} (h : Ended p) (hpoint : c ≠ '.') (hdigit : c.isDigit = false) :
    consume assoc p position c = p.leave assoc position c := by
  cases h with
  | done => exact consume_operandDone
  | literal hphase hd =>
    rcases hphase with rfl | rfl
    · simp [consume_wholePart, hpoint, hdigit, hd]
    · simp [consume_fractionPart, hdigit, hd]

theorem Ended.consume_symbol (h : Ended p) (op : Operator) :
    Progress.consume assoc p position op.symbol =
      { p with phase := .operandDue, pivot := Pivot.chosen assoc p.pivot ⟨position, op⟩ } := by
  rw [h.consume (by cases op <;> decide) (isDigit_symbol op), leave_symbol]

theorem Ended.through_blank {blanks : Text} (h : Ended p) (hb : blanks.isAllBlank) :
    ∃ phase, through assoc p position blanks = p.enter phase ∧ Ended (p.enter phase) := by
  induction blanks generalizing p position with
  | nil => exact ⟨p.phase, rfl, h⟩
  | cons c blanks ih =>
    obtain ⟨hc, hrest⟩ := Text.isAllBlank_cons.mp hb
    obtain ⟨phase, hrun, hend⟩ := ih (p := p.enter .operandDone) .done hrest
    refine ⟨phase, ?_, hend⟩
    rw [through_cons, h.consume (ne_of_isBlank hc rfl) (isDigit_eq_false_of_isBlank hc),
      leave_of_isBlank _ _ _ hc, hrun]
    rfl

theorem through_literal {before body after : Text} (hb : before.isAllBlank) (hn : Numeral body)
    (ha : after.isAllBlank) :
    ∃ phase span,
      through assoc ⟨.operandDue, depth, pivot, operand⟩ position (before ++ body ++ after) =
        ⟨phase, depth, pivot, some (.literal span)⟩ ∧
      Ended ⟨phase, depth, pivot, some (.literal span)⟩ ∧
      (position = 0 → span.value (before ++ body ++ after) = .ok hn.value) := by
  rw [through_append, through_append, through_operandDue_blank hb]
  obtain ⟨phase, span, hrun, hphase, hdigits, hvalue⟩ := through_numeral hn
  rw [hrun]
  obtain ⟨last, hlast, hend⟩ := Ended.through_blank (.literal hphase hdigits) ha
  exact ⟨last, span, hlast, hend, fun hp => hvalue before after (by rw [hp, Nat.zero_add])⟩

theorem through_group_blank {before inner after : Text} (hb : before.isAllBlank)
    (hi : inner.Balanced) (ha : after.isAllBlank) :
    ∃ phase,
      through assoc ⟨.operandDue, 0, pivot, operand⟩ position
          (before ++ '(' :: inner ++ ')' :: after) = ⟨phase, 0, pivot, some .group⟩ ∧
      Ended ⟨phase, 0, pivot, some .group⟩ := by
  have htext : before ++ '(' :: inner ++ ')' :: after =
      before ++ (('(' :: inner ++ [')']) ++ after) := by simp
  rw [htext, through_append, through_operandDue_blank hb, through_append, through_group hi]
  exact Ended.through_blank .done ha

theorem through_term {text : Text} (h : Term text) :
    ∃ phase begun,
      through assoc ⟨.operandDue, 0, pivot, operand⟩ position text =
        ⟨phase, 0, pivot, some begun⟩ ∧
      Ended ⟨phase, 0, pivot, some begun⟩ := by
  cases h with
  | literal hb hn ha =>
    obtain ⟨phase, span, hrun, hend, -⟩ := through_literal hb hn ha
    exact ⟨phase, _, hrun, hend⟩
  | group hb hi ha =>
    obtain ⟨phase, hrun, hend⟩ := through_group_blank hb hi ha
    exact ⟨phase, _, hrun, hend⟩

theorem through_link (assoc : Associativity) (position : Nat) (pivot : Option Pivot)
    (operand : Option Operand) {a : Text} (h : Term a) (op : Operator) :
    ∃ begun,
      through assoc ⟨.operandDue, 0, pivot, operand⟩ position (Link.text ⟨a, op⟩) =
        ⟨.operandDue, 0, Pivot.chosen assoc pivot ⟨position + Text.size a, op⟩, some begun⟩ := by
  obtain ⟨phase, begun, hrun, hend⟩ := through_term h
  refine ⟨begun, ?_⟩
  rw [Link.text, through_append, hrun, through_cons, hend.consume_symbol, through_nil]

theorem Pivot.chosen_cases (assoc : Associativity) (held : Option Pivot) (new : Pivot) :
    Pivot.chosen assoc held new = some new ∨ Pivot.chosen assoc held new = held := by
  cases held with
  | none => exact .inl rfl
  | some old =>
    simp only [Pivot.chosen]
    split
    · exact .inl rfl
    · exact .inr rfl

/-- The pivot held after some links is one of theirs or the one held before them. -/
theorem through_links (assoc : Associativity) (position : Nat) (pivot : Option Pivot)
    (operand : Option Operand) {links : List (Link Text)}
    (h : ∀ link ∈ links, Term link.operand) :
    ∃ held begun,
      through assoc ⟨.operandDue, 0, pivot, operand⟩ position (links.flatMap Link.text) =
        ⟨.operandDue, 0, held, begun⟩ ∧
      (held = pivot ∨ ∃ place, ∃ link ∈ links, held = some ⟨place, link.operator⟩) := by
  induction links generalizing pivot operand position with
  | nil => exact ⟨pivot, operand, rfl, .inl rfl⟩
  | cons link links ih =>
    obtain ⟨begun, hlink⟩ :=
      through_link assoc position _ operand (h link (List.mem_cons_self ..)) link.operator
    obtain ⟨held, begun, hrun, hheld⟩ := ih _ _ _ fun x hx => h x (List.mem_cons_of_mem link hx)
    refine ⟨held, begun, by rw [List.flatMap_cons, through_append, hlink, hrun], ?_⟩
    rcases hheld with rfl | ⟨place, x, hx, rfl⟩
    · rcases Pivot.chosen_cases assoc pivot _ with hnew | hold
      · exact .inr ⟨_, link, List.mem_cons_self .., hnew⟩
      · exact .inl hold
    · exact .inr ⟨place, x, List.mem_cons_of_mem link hx, rfl⟩

theorem through_links_kept (position : Nat) (operand : Option Operand)
    {links : List (Link Text)} (h : ∀ link ∈ links, Term link.operand) (held : Pivot)
    (hkept : ∀ link ∈ links, assoc.prefersLater link.operator held.operator = false) :
    ∃ begun,
      through assoc ⟨.operandDue, 0, some held, operand⟩ position (links.flatMap Link.text) =
        ⟨.operandDue, 0, some held, begun⟩ := by
  induction links generalizing operand position with
  | nil => exact ⟨operand, rfl⟩
  | cons link links ih =>
    obtain ⟨begun, hlink⟩ :=
      through_link assoc position _ operand (h link (List.mem_cons_self ..)) link.operator
    have hsame : ∀ place, Pivot.chosen assoc (some held) ⟨place, link.operator⟩ = some held := by
      intro place
      simp [Pivot.chosen, hkept link (List.mem_cons_self ..)]
    rw [List.flatMap_cons, through_append, hlink, hsame]
    exact ih _ _ (fun x hx => h x (List.mem_cons_of_mem link hx)) fun x hx =>
      hkept x (List.mem_cons_of_mem link hx)

theorem through_last (assoc : Associativity) (position : Nat) (pivot : Option Pivot)
    (operand : Option Operand) {last : Text} (h : Term last ∨ last.isAllBlank) :
    ∃ phase begun,
      through assoc ⟨.operandDue, 0, pivot, operand⟩ position last = ⟨phase, 0, pivot, begun⟩ ∧
      mayEnd ⟨phase, 0, pivot, begun⟩ = true := by
  rcases h with h | h
  · obtain ⟨phase, begun, hrun, hend⟩ := through_term h
    exact ⟨phase, some begun, hrun, hend.mayEnd⟩
  · exact ⟨.operandDue, operand, through_operandDue_blank h, rfl⟩

/-- The whole pass over a chain holds its pivot, at the place where the chain is cut. -/
theorem through_cut {before after : List (Link Text)} {a last : Text} {op : Operator}
    (h : Chain.WellFormed ⟨before ++ ⟨a, op⟩ :: after, last⟩)
    (hp : IsPivot assoc before op after) :
    ∃ phase begun,
      through assoc .initial 0 (Chain.text ⟨before ++ ⟨a, op⟩ :: after, last⟩) =
        ⟨phase, 0, some ⟨Text.size (Chain.text ⟨before, a⟩), op⟩, begun⟩ ∧
      mayEnd ⟨phase, 0, some ⟨Text.size (Chain.text ⟨before, a⟩), op⟩, begun⟩ = true := by
  have hlinks := h.links
  simp only [List.forall_mem_append, List.forall_mem_cons] at hlinks
  obtain ⟨hbefore, ha, hafter⟩ := hlinks
  have htext : Chain.text ⟨before ++ ⟨a, op⟩ :: after, last⟩ =
      before.flatMap Link.text ++ (Link.text ⟨a, op⟩ ++ (after.flatMap Link.text ++ last)) := by
    simp [Chain.text]
  have hplace : 0 + Text.size (before.flatMap Link.text) + Text.size a =
      Text.size (Chain.text ⟨before, a⟩) := by
    rw [Chain.text, Text.size_append, Nat.zero_add]
  obtain ⟨held, begun, hrun, hheld⟩ := through_links assoc 0 none none hbefore
  obtain ⟨begun, hlink⟩ :=
    through_link assoc (0 + Text.size (before.flatMap Link.text)) held begun ha op
  -- Whatever was held so far, the pivot of the chain is applied after it.
  have hchosen : ∀ place, Pivot.chosen assoc held ⟨place, op⟩ = some ⟨place, op⟩ := by
    intro place
    rcases hheld with rfl | ⟨earlier, link, hl, rfl⟩
    · rfl
    · simp [Pivot.chosen, hp.ofBefore link hl]
  obtain ⟨begun, hkept⟩ := through_links_kept
    (0 + Text.size (before.flatMap Link.text) + Text.size (Link.text ⟨a, op⟩)) (some begun) hafter
    ⟨Text.size (Chain.text ⟨before, a⟩), op⟩ hp.ofAfter
  obtain ⟨phase, begun, hlast, hend⟩ := through_last assoc _ _ begun h.last
  refine ⟨phase, begun, ?_, hend⟩
  rw [htext, through_append, initial, hrun, through_append, hlink, hchosen, hplace, through_append,
    hkept, hlast]

end Progress

-- ---------------------------------------------------------------------------
-- Levels
-- ---------------------------------------------------------------------------

namespace Level

theorem ofText_literal {before body after : Text} (hb : before.isAllBlank) (hn : Numeral body)
    (ha : after.isAllBlank) :
    ofText assoc (before ++ body ++ after) = .ok (.literal hn.value) := by
  obtain ⟨phase, span, hrun, hend, hvalue⟩ := Progress.through_literal hb hn ha
  rw [ofText, Progress.initial, hrun, Progress.level, if_pos hend.mayEnd]
  simp only [hvalue rfl]
  rfl

theorem ofText_group {before inner after : Text} (hb : before.isAllBlank) (hi : inner.Balanced)
    (ha : after.isAllBlank) :
    ofText assoc (before ++ '(' :: inner ++ ')' :: after) = .ok (.group inner) := by
  obtain ⟨phase, hrun, hend⟩ := Progress.through_group_blank hb hi ha
  rw [ofText, Progress.initial, hrun, Progress.level, if_pos hend.mayEnd]
  simp only [Text.unwrap?_group hb ha]

theorem ofText_blank {text : Text} (h : text.isAllBlank) : ofText assoc text = .error ⟨text⟩ := by
  rw [ofText, Progress.initial, Progress.through_operandDue_blank h]
  rfl

theorem ofText_cut {before after : List (Link Text)} {a last : Text} {op : Operator}
    (h : Chain.WellFormed ⟨before ++ ⟨a, op⟩ :: after, last⟩)
    (hp : IsPivot assoc before op after) :
    ofText assoc (Chain.text ⟨before ++ ⟨a, op⟩ :: after, last⟩) =
      .ok (.binary (Chain.text ⟨before, a⟩) op (Chain.text ⟨after, last⟩)) := by
  obtain ⟨phase, begun, hrun, hend⟩ := Progress.through_cut h hp
  rw [ofText, hrun, Progress.level, if_pos hend]
  simp only [Chain.text_cut, Text.cut?_size_append]

end Level

end Calculator
