import Calculator.Proofs.Course
import Calculator.Proofs.Split

/-!
# Checking a text

A text can be checked without regard to the strength of its operators and the side on which they
associate, level by level and operand by operand. The first thing that the check finds is the
malformed text that evaluation reports (`evaluate_error_iff_check`).
-/

namespace Calculator

namespace Text

/-- Whether a text can be read as a level. The side is of no influence (`isLevel_iff`). -/
def isLevel (text : Text) : Bool :=
  match Level.ofText .right text with
  | .ok _ => true
  | .error _ => false

theorem isLevel_iff (assoc : Associativity) {text : Text} :
    text.isLevel = true ↔ ∃ level, Level.ofText assoc text = .ok level := by
  have hright : text.isLevel = true ↔ ∃ level, Level.ofText .right text = .ok level := by
    rw [isLevel]
    cases Level.ofText .right text <;> simp
  rw [hright, Level.exists_ofText_iff, Level.exists_ofText_iff]

end Text

/-- The first text to report: a level that cannot be read, or blanks where an operand should be. -/
def check (text : Text) : Option Text :=
  if text.isLevel then
    (Chain.ofText text).operands.attach.findSome? fun a =>
      match _h : Text.unwrap? a.val with
      | some inner => check inner
      | none => if a.val.isAllBlank then some a.val else none
  else some text
termination_by text.length
decreasing_by
  have hle := Chain.length_le_of_mem a.property
  rw [Chain.text_ofText] at hle
  exact Nat.lt_of_lt_of_le (Text.length_lt_of_unwrap? _h) hle

def checkOperand (a : Text) : Option Text :=
  match Text.unwrap? a with
  | some inner => check inner
  | none => if a.isAllBlank then some a else none

variable {assoc : Associativity} {text : Text}

theorem check_of_not_isLevel (h : text.isLevel = false) : check text = some text := by
  rw [check, h]
  rfl

theorem check_of_isLevel (h : text.isLevel = true) :
    check text = (Chain.ofText text).operands.findSome? checkOperand := by
  rw [check, if_pos h, List.findSome?_subtype, List.unattach_attach]
  intro a ha
  unfold checkOperand
  split <;> simp_all only

-- ---------------------------------------------------------------------------
-- What an operand adds to the check
-- ---------------------------------------------------------------------------

theorem checkOperand_numeral {before body after : Text} (hb : before.isAllBlank)
    (hn : Numeral body) (ha : after.isAllBlank) :
    checkOperand (before ++ body ++ after) = none := by
  have hblank := (Term.literal hb hn ha).not_allBlank
  rw [checkOperand, hn.unwrap?_eq_none hb, hblank]
  rfl

theorem checkOperand_group {before inner after : Text} (hb : before.isAllBlank)
    (ha : after.isAllBlank) :
    checkOperand (before ++ '(' :: inner ++ ')' :: after) = check inner := by
  rw [checkOperand, Text.unwrap?_group hb ha]

theorem checkOperand_blank {blanks : Text} (h : blanks.isAllBlank) :
    checkOperand blanks = some blanks := by
  have hnone := @Text.unwrap?_eq_none blanks [] h (by simp)
  rw [List.append_nil] at hnone
  rw [checkOperand, hnone]
  exact if_pos h

theorem findSome?_congr {α β : Type} {f g : α → Option β} {l : List α}
    (h : ∀ a ∈ l, f a = g a) : l.findSome? f = l.findSome? g := by
  induction l with
  | nil => rfl
  | cons a l ih =>
    rw [List.findSome?_cons, List.findSome?_cons, h a (List.mem_cons_self ..),
      ih fun x hx => h x (List.mem_cons_of_mem a hx)]

theorem check_eq_report? (assoc : Associativity) (text : Text) :
    check text = (Tree.ofText assoc text).report? := by
  induction text using Level.chainInduction assoc with
  | malformed text herror =>
    have hno : text.isLevel = false := by
      rw [Bool.eq_false_iff, ne_eq, Text.isLevel_iff assoc, herror]
      simp
    rw [check_of_not_isLevel hno, Tree.ofText_of_error herror]
    rfl
  | chain c hc hlevel ih =>
    rw [check_of_isLevel ((Text.isLevel_iff assoc).mpr hlevel), Chain.ofText_text hc,
      Tree.report?_ofText_chain assoc hc]
    refine findSome?_congr fun a ha => ?_
    rcases hc.operand ha with hterm | hblank
    · cases hterm with
      | literal hb hn hafter =>
        rw [checkOperand_numeral hb hn hafter, Tree.ofText_numeral assoc hb hn hafter]
        rfl
      | group hb hi hafter =>
        rw [checkOperand_group hb hafter, Tree.ofText_parenthesised assoc hb hi hafter]
        exact ih _ _ _ ha
    · rw [checkOperand_blank hblank, Tree.ofText_blank assoc hblank]
      rfl

-- ---------------------------------------------------------------------------
-- What can be reported
-- ---------------------------------------------------------------------------

/-- The levels of a text: the whole of it, and what stands between a pair of parentheses in it. -/
inductive HasLevel (text : Text) : Text → Prop
  | whole : HasLevel text text
  | between {before inner after : Text} : inner.Balanced →
      text = before ++ '(' :: inner ++ ')' :: after → HasLevel text inner

/-- What a report on a text may carry: a level of it, or the blanks after the last operator of
one. -/
inductive Blamed (text : Text) : Text → Prop
  | level {e : Text} : HasLevel text e → Blamed text e
  | blanks {links : List (Link Text)} {a e : Text} {op : Operator} :
      Chain.WellFormed ⟨links ++ [⟨a, op⟩], e⟩ → e.isAllBlank →
      HasLevel text (Chain.text ⟨links ++ [⟨a, op⟩], e⟩) → Blamed text e

theorem HasLevel.within {inner level : Text} (h : HasLevel inner level) (hi : inner.Balanced)
    (before after : Text) : HasLevel (before ++ '(' :: inner ++ ')' :: after) level := by
  cases h with
  | whole => exact .between hi rfl
  | @between b _ a hl htext =>
    refine @HasLevel.between _ (before ++ '(' :: b) level (a ++ ')' :: after) hl ?_
    simp [htext]

theorem HasLevel.of_mem {c : Chain Text} {before inner after level : Text}
    (h : HasLevel inner level) (hi : inner.Balanced)
    (hmem : before ++ '(' :: inner ++ ')' :: after ∈ c.operands) : HasLevel c.text level := by
  obtain ⟨x, y, htext⟩ := Chain.exists_append_of_mem hmem
  have hassoc : x ++ (before ++ '(' :: inner ++ ')' :: after) ++ y =
      x ++ before ++ '(' :: inner ++ ')' :: (after ++ y) := by simp
  rw [htext, hassoc]
  exact h.within hi _ _

theorem Blamed.of_mem {c : Chain Text} {before inner after e : Text} (h : Blamed inner e)
    (hi : inner.Balanced) (hmem : before ++ '(' :: inner ++ ')' :: after ∈ c.operands) :
    Blamed c.text e := by
  cases h with
  | level h => exact .level (h.of_mem hi hmem)
  | blanks hc hb h => exact .blanks hc hb (h.of_mem hi hmem)

theorem blamed_of_check {e : Text} (h : check text = some e) : Blamed text e := by
  induction text using Level.chainInduction .right with
  | malformed text herror =>
    rw [check_eq_report? .right, Tree.ofText_of_error herror] at h
    obtain rfl := Option.some.inj h
    exact .level .whole
  | chain c hc hlevel ih =>
    rw [check_of_isLevel ((Text.isLevel_iff .right).mpr hlevel), Chain.ofText_text hc] at h
    obtain ⟨a, ha, hcheck⟩ := List.exists_of_findSome?_eq_some h
    rcases hc.operand ha with hterm | hblanks
    · cases hterm with
      | literal hb hn hafter =>
        rw [checkOperand_numeral hb hn hafter] at hcheck
        contradiction
      | group hb hi hafter =>
        rw [checkOperand_group hb hafter] at hcheck
        exact (ih _ _ _ ha hcheck).of_mem hi ha
    · rw [checkOperand_blank hblanks] at hcheck
      obtain rfl := Option.some.inj hcheck
      obtain ⟨level, hok⟩ := hlevel
      obtain ⟨-, -, -, hblank⟩ := Level.exists_chain hok
      obtain ⟨links, b, op, rfl⟩ := hc.exists_trailing ha hblanks hblank
      exact .blanks hc hblanks .whole

theorem not_term_of_check {e : Text} (h : check text = some e) : ¬ Term e := by
  intro hterm
  rw [check_eq_report? .right] at h
  induction text using Tree.ofTextInduction .right with
  | malformed text herror =>
    obtain rfl := Option.some.inj h
    cases hterm with
    | literal hb hn ha =>
      rw [Level.ofText_literal hb hn ha] at herror
      contradiction
    | group hb hi ha =>
      rw [Level.ofText_group hb hi ha] at herror
      contradiction
  | literal text value _ => contradiction
  | group text inner _ ih => exact ih h
  | binary text lhs op rhs _ ihl ihr =>
    rw [Tree.report?, Option.or_eq_some_iff] at h
    rcases h with h | ⟨-, h⟩
    · exact ihl h
    · exact ihr h

/-- Evaluation ends with the report of the check, or with a value if there is none, on whichever
side operators associate. What is reported is a level or blanks, and never an operand. -/
theorem evaluate_error_iff_check {σ : Type} {text : Text} {maxDepth : Nat}
    (hsize : text.size ≤ maxDepth) (trail : Trail σ) :
    (∀ assoc e, (trail.run (evaluate ⟨maxDepth, assoc⟩ none text)).1 = .error (.malformed ⟨e⟩) ↔
        check text = some e) ∧
      (∀ assoc, (∃ x, (trail.run (evaluate ⟨maxDepth, assoc⟩ none text)).1 = .ok x) ↔
        check text = none) ∧
      (∀ report,
        (trail.run (evaluate ⟨maxDepth, .right⟩ none text)).1 = .error (.malformed report) ↔
          (trail.run (evaluate ⟨maxDepth, .left⟩ none text)).1 = .error (.malformed report)) ∧
      ∀ e, check text = some e → Blamed text e ∧ ¬ Term e := by
  have herror (assoc : Associativity) (e : Text) :
      (trail.run (evaluate ⟨maxDepth, assoc⟩ none text)).1 = .error (.malformed ⟨e⟩) ↔
        check text = some e := by
    rw [evaluate_eq_malformed_iff hsize, check_eq_report? assoc]
  refine ⟨herror, ?_, ?_, ?_⟩
  · intro assoc
    rw [check_eq_report? assoc]
    exact exists_evaluate_iff hsize trail
  · rintro ⟨e⟩
    rw [herror, herror]
  · intro e h
    exact ⟨blamed_of_check h, not_term_of_check h⟩

theorem evaluate_error_iff_check_trailing :
    Text.size ['1', '+'] ≤ 2 ∧ check ['1', '+'] = some [] ∧
      ∀ assoc, (Trail.run ⟨(), ⟨0, #[]⟩⟩ (evaluate ⟨2, assoc⟩ none ['1', '+'])).1 =
        .error (.malformed ⟨[]⟩) := by
  have hsize : Text.size ['1', '+'] ≤ 2 := by decide
  have hone : Term ['1'] := @Term.literal [] ['1'] [] rfl (.digit rfl) rfl
  have hc : Chain.WellFormed ⟨[⟨['1'], .add⟩], []⟩ := ⟨by simp [hone], .inr rfl⟩
  have hcheck : check ['1', '+'] = some [] := by
    refine (check_eq_report? .right _).trans ((Tree.report?_ofText_chain .right hc).trans ?_)
    have hliteral := Tree.ofText_bareNumeral .right (.digit rfl : Numeral ['1'])
    have hblank := @Tree.ofText_blank .right [] rfl
    simp [Chain.operands, hliteral, hblank, Tree.report?]
  exact ⟨hsize, hcheck, fun assoc =>
    ((evaluate_error_iff_check hsize ⟨(), ⟨0, #[]⟩⟩).1 assoc []).mpr hcheck⟩

end Calculator
