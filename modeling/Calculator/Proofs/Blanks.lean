import Calculator.Proofs.Course

/-!
# Blanks

A text that is read without a report can lose all its blanks, those inside groups too. A blank
never stands inside a numeral, so what is left is read as before, level by level
(`Tree.upToReports_withoutBlanks`), and is evaluated with the same outcome
(`outcome_evaluate_withoutBlanks`). Only where a text is malformed may the loss of a blank join
what stood apart.
-/

namespace Calculator

variable {before body inner after : Text}

-- ---------------------------------------------------------------------------
-- Texts without blanks
-- ---------------------------------------------------------------------------

namespace Text

def withoutBlanks (text : Text) : Text := text.filter fun c => !isBlank c

theorem withoutBlanks_append (a b : Text) :
    (a ++ b).withoutBlanks = a.withoutBlanks ++ b.withoutBlanks := List.filter_append ..

theorem withoutBlanks_cons {c : Char} (h : isBlank c = false) (rest : Text) :
    withoutBlanks (c :: rest) = c :: rest.withoutBlanks := by
  simp [withoutBlanks, h]

theorem withoutBlanks_allBlank {blanks : Text} (h : blanks.isAllBlank) :
    blanks.withoutBlanks = [] := by
  refine List.filter_eq_nil_iff.mpr fun c hc => ?_
  simp [isBlank_of_mem h hc]

theorem openAfter?_withoutBlanks (d : Nat) (text : Text) :
    openAfter? d text.withoutBlanks = openAfter? d text := by
  induction text generalizing d with
  | nil => rfl
  | cons c rest ih =>
    by_cases hb : isBlank c = true
    · rw [openAfter?_other (ne_of_isBlank hb rfl) (ne_of_isBlank hb rfl)]
      simpa [withoutBlanks, hb] using ih d
    · rw [withoutBlanks_cons (by simpa using hb)]
      unfold openAfter?
      simp only [ih]

theorem Balanced.withoutBlanks (h : inner.Balanced) : inner.withoutBlanks.Balanced := by
  rw [balanced_iff, openAfter?_withoutBlanks]
  exact balanced_iff.mp h

theorem withoutBlanks_numeral (hb : before.isAllBlank) (hn : Numeral body)
    (ha : after.isAllBlank) : (before ++ body ++ after).withoutBlanks = body := by
  have hbody : body.withoutBlanks = body :=
    List.filter_eq_self.mpr fun c hc => by simp [hn.not_blank hc]
  simp [withoutBlanks_append, withoutBlanks_allBlank hb, withoutBlanks_allBlank ha, hbody]

theorem withoutBlanks_group (hb : before.isAllBlank) (ha : after.isAllBlank) :
    (before ++ '(' :: inner ++ ')' :: after).withoutBlanks =
      '(' :: inner.withoutBlanks ++ [')'] := by
  have hopen : isBlank '(' = false := rfl
  have hclose : isBlank ')' = false := rfl
  simp [withoutBlanks_append, withoutBlanks_cons hopen, withoutBlanks_cons hclose,
    withoutBlanks_allBlank hb, withoutBlanks_allBlank ha]

end Text

theorem Term.withoutBlanks {text : Text} (h : Term text) : Term text.withoutBlanks := by
  cases h with
  | literal hb hn ha =>
    rw [Text.withoutBlanks_numeral hb hn ha]
    exact hn.term
  | group hb hi ha =>
    rw [Text.withoutBlanks_group hb ha]
    exact @Term.group [] _ [] rfl hi.withoutBlanks rfl

namespace Chain

theorem text_map_withoutBlanks (c : Chain Text) :
    (c.map Text.withoutBlanks).text = c.text.withoutBlanks := by
  simp [text, map, Link.text, Link.map, Text.withoutBlanks, List.filter_flatMap,
    List.flatMap_map, isBlank_symbol]

theorem WellFormed.withoutBlanks {c : Chain Text} (h : c.WellFormed) :
    (c.map Text.withoutBlanks).WellFormed := by
  constructor
  · intro link hl
    obtain ⟨link, hmem, rfl⟩ := List.mem_map.mp hl
    exact (h.links link hmem).withoutBlanks
  · rcases h.last with ht | hb
    · exact .inl ht.withoutBlanks
    · refine .inr ?_
      rw [map, Text.withoutBlanks_allBlank hb]
      rfl

end Chain

-- ---------------------------------------------------------------------------
-- Trees up to their reports
-- ---------------------------------------------------------------------------

namespace Tree

/-- The second tree is like the first one wherever that is not malformed. The texts of the two
may differ. -/
inductive UpToReports : Tree → Tree → Prop
  | malformed {text : Text} {tree : Tree} : UpToReports (malformed text) tree
  | literal {text text' : Text} {x : Number} : UpToReports (literal text x) (literal text' x)
  | group {inner inner' : Text} {tree tree' : Tree} : UpToReports tree tree' →
      UpToReports (group inner tree) (group inner' tree')
  | binary {text text' : Text} {op : Operator} {lhs lhs' rhs rhs' : Tree} :
      UpToReports lhs lhs' → UpToReports rhs rhs' →
      UpToReports (binary text op lhs rhs) (binary text' op lhs' rhs')

theorem UpToReports.course {tree tree' : Tree} (h : tree.UpToReports tree')
    (maxDepth levels : Nat) :
    (tree.course maxDepth levels).UpTo (fun failure => ∃ report, failure = .malformed report)
      (tree'.course maxDepth levels) := by
  induction h generalizing levels with
  | malformed =>
    cases levels with
    | zero => exact .refl _
    | succ levels => exact ⟨List.nil_prefix, .inl ⟨_, ⟨_, rfl⟩, rfl⟩⟩
  | literal =>
    cases levels with
    | zero => exact .refl _
    | succ levels => exact ⟨List.prefix_refl _, .inr ⟨rfl, rfl⟩⟩
  | group _ ih =>
    cases levels with
    | zero => exact .refl _
    | succ levels => exact (ih levels).after _ _
  | binary _ _ ihl ihr =>
    cases levels with
    | zero => exact .refl _
    | succ levels =>
      exact .after ((ihl levels).andThen fun x => (ihr levels).andThen fun y => .refl _) _ _

theorem upToReports_withoutBlanks (assoc : Associativity) (text : Text) :
    (ofText assoc text).UpToReports (ofText assoc text.withoutBlanks) := by
  induction text using Level.chainInduction assoc with
  | malformed text herror =>
    rw [ofText_of_error herror]
    exact .malformed
  | chain c hc _ ih =>
    have hoperand (a : Text) (ha : a ∈ c.operands) :
        (ofText assoc a).UpToReports (ofText assoc a.withoutBlanks) := by
      rcases hc.operand ha with hterm | hblank
      · cases hterm with
        | literal hb hn hafter =>
          rw [Text.withoutBlanks_numeral hb hn hafter, ofText_numeral assoc hb hn hafter,
            ofText_bareNumeral assoc hn]
          exact .literal
        | group hb hi hafter =>
          rw [Text.withoutBlanks_group hb hafter, ofText_parenthesised assoc hb hi hafter,
            ofText_bareGroup assoc hi.withoutBlanks]
          exact .group (ih _ _ _ ha)
      · rw [ofText_blank assoc hblank]
        exact .malformed
    have hid : (c.map id).WellFormed := c.map_id.symm ▸ hc
    have htree := ofText_chain_related .binary hid hc.withoutBlanks hoperand
    rwa [Chain.map_id, Chain.text_map_withoutBlanks] at htree

end Tree

-- ---------------------------------------------------------------------------
-- Evaluation
-- ---------------------------------------------------------------------------

section

variable {σ : Type}

/-- Unless a text is found to be malformed, it is evaluated without its blanks as it is with them:
with the same value or failure, and with the same lines for the sink. So are any two texts that
differ in blanks alone. -/
theorem outcome_evaluate_withoutBlanks (settings : Settings) (sink : Option (Sink σ))
    (trail : Trail σ) {text : Text}
    (h : ∀ report, (trail.outcome (evaluate settings sink text)).1 ≠ .error (.malformed report)) :
    trail.outcome (evaluate settings sink text.withoutBlanks) =
        trail.outcome (evaluate settings sink text) ∧
      ∀ other, other.withoutBlanks = text.withoutBlanks →
        (∀ report,
          (trail.outcome (evaluate settings sink other)).1 ≠ .error (.malformed report)) →
        trail.outcome (evaluate settings sink other) =
          trail.outcome (evaluate settings sink text) := by
  have hbare {text : Text}
      (h : ∀ report,
        (trail.outcome (evaluate settings sink text)).1 ≠ .error (.malformed report)) :
      trail.outcome (evaluate settings sink text.withoutBlanks) =
        trail.outcome (evaluate settings sink text) := by
    have htree := Tree.upToReports_withoutBlanks settings.associativity text
    simp only [outcome_evaluate] at h ⊢
    refine ((htree.course _ _).outcome_eq ?_).symm
    rintro failure ⟨report, rfl⟩
    exact h report
  refine ⟨hbare h, fun other hsame hother => ?_⟩
  rw [← hbare hother, hsame, hbare h]

end

/-- The limit is met in the first group, so what is malformed in the second does not matter. -/
theorem outcome_evaluate_withoutBlanks_limited :
    Trail.outcome ⟨Quota.ofLimit 3, ⟨0, #[]⟩⟩ (evaluate ⟨1, .left⟩ (some Quota.sink)
        ['(', '\u2003', '(', '1', ')', ')', '*', '(', '2', ' ', '3', ')']) =
      (.error (.tooDeep 1), Quota.ofLimit 3) ∧
    Trail.outcome ⟨Quota.ofLimit 3, ⟨0, #[]⟩⟩ (evaluate ⟨1, .left⟩ (some Quota.sink)
        ['(', '(', '1', ')', ')', '*', '(', '2', '3', ')']) =
      (.error (.tooDeep 1), Quota.ofLimit 3) ∧
    Trail.outcome ⟨Quota.ofLimit 3, ⟨0, #[]⟩⟩ (evaluate ⟨1, .left⟩ (some Quota.sink)
        ['(', '(', '1', ')', '\t', ')', '*', '(', '2', '3', ')']) =
      (.error (.tooDeep 1), Quota.ofLimit 3) := by
  have hrun {a b : Text} (ha : a.Balanced) (hb : b.Balanced) :
      Trail.outcome ⟨Quota.ofLimit 3, ⟨0, #[]⟩⟩ (evaluate ⟨1, .left⟩ (some Quota.sink)
        ('(' :: a ++ [')'] ++ Operator.mul.symbol :: ('(' :: b ++ [')']))) =
          (.error (.tooDeep 1), Quota.ofLimit 3) := by
    have hterm {inner : Text} (hi : inner.Balanced) : Term ('(' :: inner ++ [')']) :=
      @Term.group [] inner [] rfl hi rfl
    have htree := Tree.ofText_pair .left .mul (hterm ha) (hterm hb)
    rw [Tree.ofText_bareGroup .left ha, Tree.ofText_bareGroup .left hb] at htree
    rw [outcome_evaluate, Course.ofText, htree]
    rfl
  have hreport {text : Text} (h : Trail.outcome ⟨Quota.ofLimit 3, ⟨0, #[]⟩⟩
      (evaluate ⟨1, .left⟩ (some Quota.sink) text) = (.error (.tooDeep 1), Quota.ofLimit 3))
      (report : Malformed) : (Trail.outcome ⟨Quota.ofLimit 3, ⟨0, #[]⟩⟩
        (evaluate ⟨1, .left⟩ (some Quota.sink) text)).1 ≠ .error (.malformed report) := by
    simp [h]
  have htext := @hrun ['\u2003', '(', '1', ')'] ['2', ' ', '3'] (by decide) (by decide)
  have hother := @hrun ['(', '1', ')', '\t'] ['2', '3'] (by decide) (by decide)
  obtain ⟨hbare, hothers⟩ := outcome_evaluate_withoutBlanks ⟨1, .left⟩ (some Quota.sink)
    ⟨Quota.ofLimit 3, ⟨0, #[]⟩⟩ (hreport htext)
  have hsame := hothers _ (by decide) (hreport hother)
  exact ⟨htext, hbare.trans htext, hsame.trans htext⟩

end Calculator
