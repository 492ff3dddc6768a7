import Calculator.Proofs.Pass

/-!
# What the pass accepts

`Reached` says what a text looks like when the pass has come to a phase. Every character keeps
it, so it holds after every text (`reached_through`). The texts that make a level are the
well-formed chains (`Level.exists_ofText_iff`), and the report on any other text is the text itself.
`Level.chainInduction` follows a text into the groups of its level.
-/

namespace Calculator

-- ---------------------------------------------------------------------------
-- Beginnings of levels
-- ---------------------------------------------------------------------------

/-- A beginning after which an operand is due. -/
inductive Opening : Text → Prop
  | mk {links : List (Link Text)} {blanks : Text} : (∀ link ∈ links, Term link.operand) →
      blanks.isAllBlank → Opening (links.flatMap Link.text ++ blanks)

/-- A beginning that ends with an operand and blanks. -/
inductive Complete : Text → Prop
  | mk {links : List (Link Text)} {last : Text} : (∀ link ∈ links, Term link.operand) →
      Term last → Complete (links.flatMap Link.text ++ last)

theorem Opening.nil : Opening [] := @Opening.mk [] [] (by simp) rfl

theorem Opening.blank {text : Text} (h : Opening text) {c : Char} (hc : isBlank c = true) :
    Opening (text ++ [c]) := by
  obtain ⟨hl, hb⟩ := h
  rw [List.append_assoc]
  exact .mk hl (Text.isAllBlank_append.mpr ⟨hb, by simp [hc]⟩)

theorem Opening.literal {text body : Text} (h : Opening text) (hn : Numeral body) :
    Complete (text ++ body) := by
  obtain ⟨hl, hb⟩ := h
  rw [List.append_assoc]
  have ht := Term.literal hb hn Text.isAllBlank_nil
  rw [List.append_nil] at ht
  exact .mk hl ht

theorem Opening.group {text inner : Text} (h : Opening text) (hi : inner.Balanced) :
    Complete (text ++ '(' :: inner ++ [')']) := by
  obtain ⟨hl, hb⟩ := h
  rw [List.append_assoc, List.append_assoc, ← List.append_assoc _ _ [')']]
  exact .mk hl (.group hb hi Text.isAllBlank_nil)

theorem Complete.blank {text : Text} (h : Complete text) {c : Char} (hc : isBlank c = true) :
    Complete (text ++ [c]) := by
  obtain ⟨hl, ht⟩ := h
  rw [List.append_assoc]
  exact .mk hl (Term.pad Text.isAllBlank_nil ht (by simp [hc]))

theorem Complete.symbol {text : Text} (h : Complete text) (op : Operator) :
    Opening (text ++ [op.symbol]) := by
  obtain @⟨links, last, hl, ht⟩ := h
  have hlinks : ∀ link ∈ links ++ [⟨last, op⟩], Term link.operand := by
    intro link hlink
    rcases List.mem_append.mp hlink with hlink | hlink
    · exact hl link hlink
    · rw [List.mem_singleton.mp hlink]
      exact ht
  have h := Opening.mk hlinks Text.isAllBlank_nil
  simpa [Link.text] using h

theorem Opening.exists_chain {text : Text} (h : Opening text) :
    ∃ c : Chain Text, c.WellFormed ∧ c.text = text := by
  obtain @⟨links, blanks, hl, hb⟩ := h
  exact ⟨⟨links, blanks⟩, ⟨hl, .inr hb⟩, rfl⟩

theorem Complete.exists_chain {text : Text} (h : Complete text) :
    ∃ c : Chain Text, c.WellFormed ∧ c.text = text := by
  obtain @⟨links, last, hl, ht⟩ := h
  exact ⟨⟨links, last⟩, ⟨hl, .inl ht⟩, rfl⟩

-- ---------------------------------------------------------------------------
-- The invariant of the pass
-- ---------------------------------------------------------------------------

def Sign (text : Text) : Prop := text = [] ∨ text = ['+'] ∨ text = ['-']

theorem Sign.numeral {sign body : Text} (hs : Sign sign) (h : Unsigned body) :
    Numeral (sign ++ body) := by
  rcases hs with rfl | rfl | rfl
  · exact .unsigned h
  · exact .signed (.inl rfl) h
  · exact .signed (.inr rfl) h

/-- What the text looks like that takes the pass to a progress. -/
inductive Reached : Progress → Text → Prop
  | operandDue {text : Text} {pivot : Option Pivot} {operand : Option Operand} :
      Opening text → Reached ⟨.operandDue, 0, pivot, operand⟩ text
  | inGroup {text inner : Text} {d : Nat} {pivot : Option Pivot} {operand : Option Operand} :
      Opening text → inner.openAfter? 0 = some d →
      Reached ⟨.inGroup, d + 1, pivot, operand⟩ (text ++ '(' :: inner)
  | wholePart {text sign digits : Text} {pivot : Option Pivot} {span : Literal} :
      Opening text → Sign sign → digits.isAllDigits → span.digits = digits.length →
      Reached ⟨.wholePart, 0, pivot, some (.literal span)⟩ (text ++ (sign ++ digits))
  | fractionPart {text sign digits places : Text} {pivot : Option Pivot} {span : Literal} :
      Opening text → Sign sign → digits.isAllDigits → places.isAllDigits →
      span.digits = (digits ++ places).length →
      Reached ⟨.fractionPart, 0, pivot, some (.literal span)⟩
        (text ++ (sign ++ (digits ++ '.' :: places)))
  | operandDone {text : Text} {pivot : Option Pivot} {operand : Option Operand} :
      Complete text → Reached ⟨.operandDone, 0, pivot, operand⟩ text
  | rejected {p : Progress} {text : Text} : p.phase = .rejected → Reached p text

variable {assoc : Associativity} {position : Nat} {pivot : Option Pivot}
  {operand : Option Operand} {c : Char} {text : Text}

theorem Complete.leave (h : Complete text) (assoc : Associativity) (phase : Phase)
    (position : Nat) (c : Char) (pivot : Option Pivot) (operand : Option Operand) :
    Reached (Progress.leave ⟨phase, 0, pivot, operand⟩ assoc position c) (text ++ [c]) := by
  unfold Progress.leave
  split
  · rename_i op hop
    rw [Operator.ofChar?_eq_some_iff.mp hop]
    exact .operandDue (h.symbol op)
  · split
    · rename_i hb
      exact .operandDone (h.blank hb)
    · exact .rejected rfl

theorem Opening.consume (h : Opening text) :
    Reached (Progress.consume assoc ⟨.operandDue, 0, pivot, operand⟩ position c)
      (text ++ [c]) := by
  rw [Progress.consume_operandDue]
  split
  case isTrue hopen =>
    subst hopen
    exact @Reached.inGroup text [] 0 _ _ h rfl
  case isFalse =>
  split
  case isTrue hsign =>
    have hs : Sign [c] := by
      rcases hsign with rfl | rfl
      · exact .inr (.inl rfl)
      · exact .inr (.inr rfl)
    exact @Reached.wholePart text [c] [] _ _ h hs rfl rfl
  case isFalse =>
  split
  case isTrue hpoint =>
    subst hpoint
    exact @Reached.fractionPart text [] [] [] _ _ h (.inl rfl) rfl rfl rfl
  case isFalse =>
  split
  case isTrue hdigit =>
    exact @Reached.wholePart text [] [c] _ _ h (.inl rfl) (by simp [Text.isAllDigits, hdigit]) rfl
  case isFalse =>
  split
  case isTrue hb => exact .operandDue (h.blank hb)
  case isFalse => exact .rejected rfl

theorem Literal.hasDigits_iff {span : Literal} {digits : Text}
    (h : span.digits = digits.length) : span.hasDigits = true ↔ digits ≠ [] := by
  rw [Literal.hasDigits, decide_eq_true_iff, h, List.length_pos_iff]

theorem Opening.whole {sign digits : Text} {span : Literal} (h : Opening text) (hs : Sign sign)
    (hd : digits.isAllDigits) (hcount : span.digits = digits.length)
    (hany : span.hasDigits = true) : Complete (text ++ (sign ++ digits)) :=
  h.literal (hs.numeral (.whole hd ((Literal.hasDigits_iff hcount).mp hany)))

theorem Opening.fraction {sign digits places : Text} {span : Literal} (h : Opening text)
    (hs : Sign sign) (hd : digits.isAllDigits) (hp : places.isAllDigits)
    (hcount : span.digits = (digits ++ places).length) (hany : span.hasDigits = true) :
    Complete (text ++ (sign ++ (digits ++ '.' :: places))) :=
  h.literal (hs.numeral (unsigned_iff.mpr
    (.inr ⟨digits, places, hd, hp, (Literal.hasDigits_iff hcount).mp hany, rfl⟩)))

theorem Text.isAllDigits_concat {digits : Text} (h : digits.isAllDigits)
    (hc : c.isDigit = true) : Text.isAllDigits (digits ++ [c]) = true := by
  simpa [isAllDigits, hc] using h

theorem Opening.consume_inGroup {inner : Text} {d : Nat} (h : Opening text)
    (hi : inner.openAfter? 0 = some d) :
    Reached (Progress.consume assoc ⟨.inGroup, d + 1, pivot, operand⟩ position c)
      (text ++ '(' :: inner ++ [c]) := by
  rw [Progress.consume_inGroup, List.append_assoc, List.cons_append]
  have hinner (e : Nat) : Text.openAfter? 0 (inner ++ [c]) = some e ↔
      Text.openAfter? d [c] = some e := by
    rw [Text.openAfter?_append, hi, Option.bind_some]
  split
  case isTrue hopen =>
    subst hopen
    exact .inGroup h ((hinner _).mpr (by simp))
  case isFalse hopen =>
  split
  case isTrue hclose =>
    subst hclose
    cases d with
    | zero =>
      have hc := h.group (Text.balanced_iff.mpr hi)
      rw [List.append_assoc, List.cons_append] at hc
      exact .operandDone hc
    | succ d => exact .inGroup h ((hinner _).mpr (by simp))
  case isFalse hclose =>
  exact .inGroup h ((hinner _).mpr (by rw [Text.openAfter?_other hopen hclose]; rfl))

theorem Opening.consume_wholePart {sign digits : Text} {span : Literal} (h : Opening text)
    (hs : Sign sign) (hd : digits.isAllDigits) (hcount : span.digits = digits.length) :
    Reached (Progress.consume assoc ⟨.wholePart, 0, pivot, some (.literal span)⟩ position c)
      (text ++ (sign ++ digits) ++ [c]) := by
  rw [Progress.consume_wholePart]
  split
  case isTrue hpoint =>
    subst hpoint
    have hr : Reached ⟨.fractionPart, 0, pivot, some (.literal (span.point position))⟩ _ :=
      .fractionPart h hs hd (rfl : Text.isAllDigits [] = true)
        (by simpa [Literal.point] using hcount)
    simpa using hr
  case isFalse =>
  split
  case isTrue hdigit =>
    have hr : Reached ⟨.wholePart, 0, pivot, some (.literal (span.digit position))⟩ _ :=
      .wholePart h hs (Text.isAllDigits_concat hd hdigit) (by simp [Literal.digit, hcount])
    simpa using hr
  case isFalse =>
  split
  case isTrue hany => exact (h.whole hs hd hcount hany).leave ..
  case isFalse => exact .rejected rfl

theorem Opening.consume_fractionPart {sign digits places : Text} {span : Literal}
    (h : Opening text) (hs : Sign sign) (hd : digits.isAllDigits) (hp : places.isAllDigits)
    (hcount : span.digits = (digits ++ places).length) :
    Reached (Progress.consume assoc ⟨.fractionPart, 0, pivot, some (.literal span)⟩ position c)
      (text ++ (sign ++ (digits ++ '.' :: places)) ++ [c]) := by
  rw [Progress.consume_fractionPart]
  split
  case isTrue hdigit =>
    have hr : Reached ⟨.fractionPart, 0, pivot, some (.literal (span.digit position))⟩ _ :=
      .fractionPart h hs hd (Text.isAllDigits_concat hp hdigit)
        (by simp [Literal.digit, hcount, Nat.add_assoc])
    simpa using hr
  case isFalse =>
  split
  case isTrue hany => exact (h.fraction hs hd hp hcount hany).leave ..
  case isFalse => exact .rejected rfl

theorem Reached.consume {p : Progress} (h : Reached p text) (assoc : Associativity)
    (position : Nat) (c : Char) :
    Reached (p.consume assoc position c) (text ++ [c]) := by
  cases h with
  | operandDue h => exact h.consume
  | inGroup h hi => exact h.consume_inGroup hi
  | wholePart h hs hd hcount => exact h.consume_wholePart hs hd hcount
  | fractionPart h hs hd hp hcount => exact h.consume_fractionPart hs hd hp hcount
  | operandDone h =>
    rw [Progress.consume_operandDone]
    exact h.leave ..
  | @rejected p _ h =>
    obtain ⟨phase, depth, pivot, operand⟩ := p
    subst h
    rw [Progress.consume_rejected]
    exact .rejected rfl

theorem Reached.through {p : Progress} (h : Reached p text) (assoc : Associativity)
    (position : Nat) (rest : Text) : Reached (p.through assoc position rest) (text ++ rest) := by
  induction rest generalizing p text position with
  | nil => simpa using h
  | cons c rest ih =>
    have hr := ih (h.consume assoc position c) (position + c.utf8Size)
    rwa [List.append_assoc] at hr

theorem reached_through (assoc : Associativity) (text : Text) :
    Reached (Progress.through assoc .initial 0 text) text :=
  Reached.through (.operandDue .nil) assoc 0 text

theorem Reached.depth_pos {p : Progress} (h : Reached p text) (hp : p.phase = .inGroup) :
    0 < p.depth := by
  cases h with
  | inGroup h hi => exact Nat.succ_pos _
  | rejected h =>
    rw [h] at hp
    contradiction
  | _ => contradiction

theorem Reached.depth_eq_zero {p : Progress} (h : Reached p text) (hgroup : p.phase ≠ .inGroup)
    (hrejected : p.phase ≠ .rejected) : p.depth = 0 := by
  cases h with
  | inGroup => exact absurd rfl hgroup
  | rejected h => exact absurd h hrejected
  | _ => rfl

theorem Reached.phase_ne_literalDue {p : Progress} (h : Reached p text) : p.phase ≠ .literalDue := by
  intro hdue
  cases h with
  | rejected h =>
    rw [h] at hdue
    contradiction
  | _ => contradiction

theorem Reached.exists_chain {p : Progress} (h : Reached p text) (hend : p.mayEnd = true) :
    ∃ c : Chain Text, c.WellFormed ∧ c.text = text := by
  cases h with
  | operandDue h => exact h.exists_chain
  | inGroup => contradiction
  | wholePart h hs hd hcount => exact (h.whole hs hd hcount hend).exists_chain
  | fractionPart h hs hd hp hcount => exact (h.fraction hs hd hp hcount hend).exists_chain
  | operandDone h => exact h.exists_chain
  | rejected h =>
    rw [Progress.mayEnd, h] at hend
    contradiction

-- ---------------------------------------------------------------------------
-- Levels
-- ---------------------------------------------------------------------------

theorem Literal.eq_of_value_error {span : Literal} {report : Malformed}
    (h : span.value text = .error report) : report = ⟨text⟩ := by
  unfold Literal.value at h
  split at h
  · split at h
    · contradiction
    · exact (Except.error.inj h).symm
  · exact (Except.error.inj h).symm

namespace Level

theorem exists_chain {level : Level} (h : ofText assoc text = .ok level) :
    ∃ c : Chain Text, c.WellFormed ∧ c.text = text ∧ text.isAllBlank = false := by
  have hend : (Progress.through assoc .initial 0 text).mayEnd = true := by
    rw [ofText, Progress.level] at h
    split at h
    · assumption
    · contradiction
  obtain ⟨c, hc, htext⟩ := (reached_through assoc text).exists_chain hend
  refine ⟨c, hc, htext, Bool.eq_false_iff.mpr fun hb => ?_⟩
  rw [ofText_blank hb] at h
  contradiction

theorem balanced_of_ofText {level : Level} (h : ofText assoc text = .ok level) : text.Balanced := by
  obtain ⟨c, hc, rfl, -⟩ := exists_chain h
  exact hc.balanced

theorem eq_of_ofText_error {report : Malformed} (h : ofText assoc text = .error report) :
    report = ⟨text⟩ := by
  unfold ofText Progress.level at h
  split at h
  case isFalse => exact (Except.error.inj h).symm
  split at h
  · split at h
    · contradiction
    · exact (Except.error.inj h).symm
  · rename_i span _ _
    cases hv : span.value text with
    | ok x =>
      rw [hv] at h
      contradiction
    | error report' =>
      rw [hv] at h
      exact (Except.error.inj h).symm.trans (Literal.eq_of_value_error hv)
  · split at h
    · contradiction
    · exact (Except.error.inj h).symm
  · exact (Except.error.inj h).symm

/-- What level a text is, said without the pass. -/
inductive Reads (assoc : Associativity) : Text → Level → Prop
  | literal {before body after : Text} : before.isAllBlank → (hn : Numeral body) →
      after.isAllBlank → Reads assoc (before ++ body ++ after) (.literal hn.value)
  | group {before inner after : Text} : before.isAllBlank → inner.Balanced → after.isAllBlank →
      Reads assoc (before ++ '(' :: inner ++ ')' :: after) (.group inner)
  | binary {before after : List (Link Text)} {a last : Text} {op : Operator} :
      Chain.WellFormed ⟨before ++ ⟨a, op⟩ :: after, last⟩ → IsPivot assoc before op after →
      Reads assoc (Chain.text ⟨before ++ ⟨a, op⟩ :: after, last⟩)
        (.binary (Chain.text ⟨before, a⟩) op (Chain.text ⟨after, last⟩))

theorem Reads.ofText_eq {level : Level} (h : Reads assoc text level) :
    ofText assoc text = .ok level := by
  cases h with
  | literal hb hn ha => exact ofText_literal hb hn ha
  | group hb hi ha => exact ofText_group hb hi ha
  | binary hc hp => exact ofText_cut hc hp

theorem exists_reads_of_wellFormed {c : Chain Text} (h : c.WellFormed)
    (hblank : c.text.isAllBlank = false) : ∃ level, Reads assoc c.text level := by
  obtain ⟨links, last⟩ := c
  by_cases hlinks : links = []
  · subst hlinks
    rcases h.last with ht | hb
    · cases ht with
      | literal hb hn ha => exact ⟨_, .literal hb hn ha⟩
      | group hb hi ha => exact ⟨_, .group hb hi ha⟩
    · rw [Chain.text_single, hb] at hblank
      contradiction
  · obtain ⟨before, a, op, after, rfl, hp⟩ := exists_pivot assoc hlinks
    exact ⟨_, .binary h hp⟩

/-- Which texts are levels does not depend on how operators associate. -/
theorem exists_ofText_iff :
    (∃ level, ofText assoc text = .ok level) ↔
      ∃ c : Chain Text, c.WellFormed ∧ c.text = text ∧ text.isAllBlank = false := by
  constructor
  · rintro ⟨level, h⟩
    exact exists_chain h
  · rintro ⟨c, hc, rfl, hblank⟩
    obtain ⟨level, hr⟩ := @exists_reads_of_wellFormed assoc c hc hblank
    exact ⟨level, hr.ofText_eq⟩

theorem ofText_eq_ok_iff {level : Level} :
    ofText assoc text = .ok level ↔ Reads assoc text level := by
  refine ⟨fun h => ?_, Reads.ofText_eq⟩
  obtain ⟨c, hc, rfl, hblank⟩ := exists_chain h
  obtain ⟨found, hr⟩ := @exists_reads_of_wellFormed assoc c hc hblank
  rw [hr.ofText_eq] at h
  exact Except.ok.inj h ▸ hr

/-- To show something of all texts, show it of those that make no level, and of a chain if the
groups among its operands hold texts that have it. -/
@[elab_as_elim]
theorem chainInduction (assoc : Associativity) {motive : Text → Prop}
    (malformed : ∀ text, ofText assoc text = .error ⟨text⟩ → motive text)
    (chain : ∀ c : Chain Text, c.WellFormed → (∃ level, ofText assoc c.text = .ok level) →
      (∀ before inner after, before ++ '(' :: inner ++ ')' :: after ∈ c.operands →
        motive inner) → motive c.text)
    (text : Text) : motive text := by
  induction hn : text.length using Nat.strongRecOn generalizing text with
  | ind n ih =>
    subst hn
    cases h : ofText assoc text with
    | error report =>
      rw [eq_of_ofText_error h] at h
      exact malformed text h
    | ok level =>
      obtain ⟨c, hc, rfl, -⟩ := exists_chain h
      refine chain c hc ⟨level, h⟩ fun before inner after hmem => ih inner.length ?_ inner rfl
      exact Nat.lt_of_lt_of_le (Text.length_inner_lt ..) (Chain.length_le_of_mem hmem)

end Level

end Calculator
