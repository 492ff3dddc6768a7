import Calculator.Proofs.Literals

/-!
# Numbers that are written and read again

What is written for a finite number is a numeral: digits, with a point among them or none, and a
minus before them if the number has one. It is read as the same number
(`Number.exists_numeral_text`). So a line that shows a step on finite numbers can be entered as it
stands there, and gives the same step (`run_evaluate_printed`).
-/

namespace Calculator

namespace Text

variable {a b : Text}

@[simp] theorem isAllDigits_append :
    isAllDigits (a ++ b) = true ↔ a.isAllDigits = true ∧ b.isAllDigits = true := by
  simp [isAllDigits]

theorem isAllDigits_digits (n : Nat) : (digits n).isAllDigits = true :=
  isAllDigits_iff.mpr fun _ => isDigit_of_mem_digits

theorem isAllDigits_zeros (n : Nat) : isAllDigits (List.replicate n '0') = true := by
  simp [isAllDigits]

theorem ofDigits_append_zeros (text : Text) (n : Nat) :
    ofDigits (text ++ List.replicate n '0') = ofDigits text * Nat.pow 10 n := by
  induction n with
  | zero => simp
  | succ n ih =>
    have hzero : digitValue '0' = 0 := rfl
    have hpow : Nat.pow 10 (n + 1) = Nat.pow 10 n * 10 := Nat.pow_succ ..
    rw [List.replicate_succ', ← List.append_assoc, ofDigits_concat, ih, hzero, hpow, Nat.add_zero,
      Nat.mul_comm 10, Nat.mul_assoc]

theorem ofDigits_zeros_append (n : Nat) (text : Text) :
    ofDigits (List.replicate n '0' ++ text) = ofDigits text := by
  induction n with
  | zero => rfl
  | succ n ih => exact ih

theorem significand_whole (h : a.isAllDigits) : a.significand = ofDigits a := by
  rw [significand, filter_isDigit h]

theorem places_whole (h : a.isAllDigits) : a.places = 0 := by
  have hdrop := dropWhile_ne_point h []
  rw [List.append_nil] at hdrop
  rw [places, hdrop]
  rfl

theorem significand_pointed (ha : a.isAllDigits) (hb : b.isAllDigits) :
    significand (a ++ '.' :: b) = ofDigits (a ++ b) := by
  simp [significand, filter_isDigit ha, filter_isDigit hb]

theorem places_pointed (h : a.isAllDigits) (b : Text) : places (a ++ '.' :: b) = b.length := by
  rw [places, dropWhile_ne_point h]
  rfl

end Text

-- ---------------------------------------------------------------------------
-- The text of a decimal
-- ---------------------------------------------------------------------------

namespace Decimal

variable {d : Decimal}

theorem text_of_nonneg (h : 0 ≤ d.exponent) :
    d.text = Text.digits d.digits ++ List.replicate d.exponent.toNat '0' := if_pos h

theorem exists_text_of_neg (h : d.exponent < 0) :
    ∃ whole places : Text, d.text = whole ++ '.' :: places ∧ whole.isAllDigits ∧
      whole ≠ [] ∧ places.isAllDigits ∧ Text.ofDigits (whole ++ places) = d.digits ∧
      (places.length : Int) = -d.exponent := by
  let padded := List.replicate ((-d.exponent).toNat + 1 - (Text.digits d.digits).length) '0' ++
    Text.digits d.digits
  let cut := padded.length - (-d.exponent).toNat
  have hpadded : Text.isAllDigits padded = true :=
    Text.isAllDigits_append.mpr ⟨Text.isAllDigits_zeros _, Text.isAllDigits_digits _⟩
  have hlength : (-d.exponent).toNat + 1 ≤ padded.length := by
    simp only [padded, List.length_append, List.length_replicate]
    omega
  have hparts := hpadded
  rw [← List.take_append_drop cut padded, Text.isAllDigits_append] at hparts
  refine ⟨padded.take cut, padded.drop cut, if_neg (by omega), hparts.1, ?_, hparts.2, ?_, ?_⟩
  · rw [← List.length_pos_iff, List.length_take]
    omega
  · rw [List.take_append_drop, Text.ofDigits_zeros_append, Text.ofDigits_digits]
  · rw [List.length_drop]
    omega

theorem unsigned_text (d : Decimal) : Unsigned d.text := by
  by_cases h : 0 ≤ d.exponent
  · rw [text_of_nonneg h]
    refine .whole ?_ (List.append_ne_nil_of_left_ne_nil (Text.digits_ne_nil _) _)
    exact Text.isAllDigits_append.mpr ⟨Text.isAllDigits_digits _, Text.isAllDigits_zeros _⟩
  · obtain ⟨whole, places, htext, hwhole, hne, hplaces, -, -⟩ :=
      exists_text_of_neg (Int.not_le.mp h)
    rw [htext]
    exact .pointed hwhole hne hplaces

/-- Zeros after the digits do for a power of ten, unless it is so great that none is written. -/
theorem nearest_of_zeros (h : 0 ≤ d.exponent) (hfinite : d.nearest ≠ .infinity) :
    nearest ⟨d.digits * Nat.pow 10 d.exponent.toNat, 0⟩ = d.nearest := by
  have hone : (-d.exponent).toNat = 0 := by omega
  have hwhole : nearest ⟨d.digits * Nat.pow 10 d.exponent.toNat, 0⟩ =
      Magnitude.nearest d.numerator d.denominator := by
    rw [denominator, hone]
    exact nearest_of_places _ 0
  by_cases hzero : d.digits = 0
  · simp [nearest, hzero]
  · rw [hwhole]
    unfold nearest at hfinite ⊢
    rw [if_neg hzero] at hfinite ⊢
    split at hfinite
    case isTrue => contradiction
    case isFalse hsmall => rw [if_neg hsmall, if_neg (by omega)]

theorem nearest_text (hfinite : d.nearest ≠ .infinity) :
    nearest ⟨d.text.significand, -d.text.places⟩ = d.nearest := by
  by_cases h : 0 ≤ d.exponent
  · have hdigits := Text.isAllDigits_append.mpr
      ⟨Text.isAllDigits_digits d.digits, Text.isAllDigits_zeros d.exponent.toNat⟩
    rw [text_of_nonneg h, Text.significand_whole hdigits, Text.places_whole hdigits,
      Text.ofDigits_append_zeros, Text.ofDigits_digits]
    exact nearest_of_zeros h hfinite
  · obtain ⟨whole, places, htext, hwhole, -, hplaces, hvalue, hlength⟩ :=
      exists_text_of_neg (Int.not_le.mp h)
    rw [htext, Text.significand_pointed hwhole hplaces, Text.places_pointed hwhole, hvalue, hlength,
      Int.neg_neg]

end Decimal

-- ---------------------------------------------------------------------------
-- The text of a number
-- ---------------------------------------------------------------------------

namespace Number

def isFinite : Number → Bool
  | nan | signallingNan => false
  | signed _ magnitude => magnitude ≠ .infinity

theorem exists_numeral_text {x : Number} (h : x.isFinite = true) :
    ∃ hn : Numeral x.text, hn.value = x := by
  cases x with
  | nan => contradiction
  | signallingNan => contradiction
  | signed negative m =>
    have hm : m ≠ .infinity := of_decide_eq_true h
    have hu := m.shortest.unsigned_text
    have hvalue : (Numeral.unsigned hu).value = .signed false m := by
      rw [hu.value_eq, Decimal.nearest_text (by rwa [m.nearest_shortest]), m.nearest_shortest]
    rw [text, Magnitude.text, if_neg hm]
    cases negative with
    | false => exact ⟨.unsigned hu, hvalue⟩
    | true => exact ⟨.signed (.inr rfl) hu, by rw [Numeral.value_minus hu, hvalue]; rfl⟩

end Number

-- ---------------------------------------------------------------------------
-- A step that is entered again
-- ---------------------------------------------------------------------------

theorem Tree.ofText_printed (assoc : Associativity) (op : Operator) {l r : Number}
    (hl : l.isFinite = true) (hr : r.isFinite = true) {before after : Text}
    (hb : before.isAllBlank) (ha : after.isAllBlank) :
    ofText assoc (l.text ++ before ++ op.symbol :: after ++ r.text) =
      .binary (l.text ++ before ++ op.symbol :: after ++ r.text) op
        (.literal (l.text ++ before) l) (.literal (after ++ r.text) r) := by
  obtain ⟨hln, hlv⟩ := Number.exists_numeral_text hl
  obtain ⟨hrn, hrv⟩ := Number.exists_numeral_text hr
  have hlhs := @ofText_numeral assoc [] l.text before rfl hln hb
  have hrhs := @ofText_numeral assoc after r.text [] ha hrn rfl
  have hpair := ofText_pair assoc op (@Term.literal [] l.text before rfl hln hb)
    (@Term.literal after r.text [] ha hrn rfl)
  rw [hlhs, hrhs, hlv, hrv] at hpair
  simpa using hpair

/-- The operands of a step, written as they are shown in its line, with its operator between them
and any blanks around it, are evaluated to the result of the step, and the line is shown again. -/
theorem run_evaluate_printed {settings : Settings} (hlimit : 1 ≤ settings.maxDepth) (op : Operator)
    {l r : Number} (hl : l.isFinite = true) (hr : r.isFinite = true) {before after : Text}
    (hb : before.isAllBlank) (ha : after.isAllBlank) (trail : Trail (Array Text)) :
    (trail.run (evaluate settings (some Sink.collecting)
        (l.text ++ before ++ op.symbol :: after ++ r.text))).1 = .ok (op.apply l r) ∧
      (trail.run (evaluate settings (some Sink.collecting)
        (l.text ++ before ++ op.symbol :: after ++ r.text))).2.sink =
          trail.sink.push (Step.line ⟨l, op, r, op.apply l r⟩) := by
  obtain ⟨levels, hlevels⟩ := Nat.exists_eq_add_of_le' hlimit
  rw [run_evaluate_keeping, Course.ofText, Tree.ofText_printed _ op hl hr hb ha, hlevels]
  exact ⟨rfl, rfl⟩

/-- Of the two minuses in a row the second one is a sign, and so is the one of a zero. -/
theorem run_evaluate_printed_signs :
    Number.isFinite (.signed true .zero) = true ∧
      Number.isFinite (.signed true (.ofRank (Nat.pow 2 62))) = true ∧
      Text.isAllBlank ['\t'] = true ∧
      (Trail.run ⟨#[], ⟨0, #[]⟩⟩
          (evaluate ⟨1, .left⟩ (some Sink.collecting) ['-', '0', '\t', '-', '-', '2'])).1 =
        .ok (Operator.sub.apply (.signed true .zero) (.signed true (.ofRank (Nat.pow 2 62)))) ∧
      (Trail.run ⟨#[], ⟨0, #[]⟩⟩
          (evaluate ⟨1, .left⟩ (some Sink.collecting) ['-', '0', '\t', '-', '-', '2'])).2.sink =
        #[Step.line (.ofOperands .sub (.signed true .zero)
          (.signed true (.ofRank (Nat.pow 2 62))))] := by
  have hzero : Number.isFinite (.signed true .zero) = true := by decide +kernel
  have htwo : Number.isFinite (.signed true (.ofRank (Nat.pow 2 62))) = true := by decide +kernel
  have htext : Number.text (.signed true .zero) ++ ['\t'] ++ Operator.sub.symbol :: [] ++
      Number.text (.signed true (.ofRank (Nat.pow 2 62))) =
        ['-', '0', '\t', '-', '-', '2'] := by decide +kernel
  have hrun := @run_evaluate_printed ⟨1, .left⟩ (Nat.le_refl 1) .sub _ _ hzero htwo ['\t'] []
    rfl rfl ⟨#[], ⟨0, #[]⟩⟩
  rw [htext] at hrun
  exact ⟨hzero, htwo, rfl, hrun⟩

end Calculator
