import Calculator.Proofs.Course
import Calculator.Proofs.Rounding

/-!
# Literals

A text that is one numeral between blanks has the number that is read from the numeral, at any
limit and on both sides of association. The magnitude of that number is the nearest to the decimal
that is written, and its sign is the one that is written: it stays with a zero, also with one that
comes from rounding, and with an infinity (`run_evaluate_literal`).
-/

namespace Calculator

variable {body before after : Text}

-- ---------------------------------------------------------------------------
-- The number of a numeral
-- ---------------------------------------------------------------------------

theorem toLower_of_isDigit {c : Char} (h : c.isDigit = true) : c.toLower = c := by
  unfold Char.toLower
  split
  · rename_i hupper
    have hle : 65 ≤ c.toNat := UInt32.le_iff_toNat_le.mp hupper.1
    exact absurd (Nat.le_trans hle (isDigit_iff.mp h).2) (by decide)
  · rfl

theorem Unsigned.ofWord?_eq_none (h : Unsigned body) : Number.ofWord? body = none := by
  have hletter : 'n' ∉ body.map Char.toLower := by
    intro hn
    obtain ⟨c, hc, hlower⟩ := List.mem_map.mp hn
    rcases h.mem hc with rfl | hdigit
    · exact absurd hlower (by decide)
    · rw [toLower_of_isDigit hdigit] at hlower
      subst hlower
      contradiction
  unfold Number.ofWord?
  simp only
  rw [if_neg, if_neg]
  · intro hword
    exact hletter (hword ▸ by decide)
  · rintro (hword | hword)
    · exact hletter (hword ▸ by decide)
    · exact hletter (hword ▸ by decide)

theorem Unsigned.value_eq (h : Unsigned body) :
    (Numeral.unsigned h).value =
      .signed false (Decimal.nearest ⟨body.significand, -body.places⟩) := by
  have hread : Number.ofUnsigned? body =
      some (.signed false (Decimal.nearest ⟨body.significand, -body.places⟩)) := by
    simp [Number.ofUnsigned?, h.ofWord?_eq_none, h.ofText?_decimal]
  rw [← Option.some_inj, ← Numeral.ofText?_eq, h.ofText?, hread]

/-- The number of a numeral is the nearest to what its digits and its point say, with its sign. -/
theorem Numeral.value_eq (h : Numeral body) :
    h.value = .signed (body.head? == some '-') (Decimal.nearest ⟨body.significand, -body.places⟩) := by
  cases h with
  | unsigned h =>
    have hsign : (body.head? == some '-') = false := by
      obtain ⟨c, rest, rfl⟩ := List.exists_cons_of_ne_nil h.ne_nil
      have hc : c ≠ '-' := by
        rintro rfl
        simpa using h.mem (List.mem_cons_self ..)
      simpa using hc
    rw [hsign]
    exact h.value_eq
  | @signed sign body hs h =>
    -- The sign is no digit and no point.
    have hdigits : Text.significand (sign :: body) = body.significand := by
      rcases hs with rfl | rfl <;> rfl
    have hplaces : Text.places (sign :: body) = body.places := by
      rcases hs with rfl | rfl <;> rfl
    rw [hdigits, hplaces]
    rcases hs with rfl | rfl
    · rw [Numeral.value_plus h]
      exact h.value_eq
    · rw [Numeral.value_minus h, h.value_eq]
      rfl

-- ---------------------------------------------------------------------------
-- Numerals with opposite signs
-- ---------------------------------------------------------------------------

/-- Two numerals that differ in their sign alone. A plus may be left out. -/
inductive Opposite : Text → Text → Prop
  | ofBare {body : Text} : Unsigned body → Opposite body ('-' :: body)
  | ofPlus {body : Text} : Unsigned body → Opposite ('+' :: body) ('-' :: body)
  | toBare {body : Text} : Unsigned body → Opposite ('-' :: body) body
  | toPlus {body : Text} : Unsigned body → Opposite ('-' :: body) ('+' :: body)

theorem Opposite.exists_value {flipped : Text} (h : Opposite body flipped) (hn : Numeral body) :
    ∃ hf : Numeral flipped, hf.value = hn.value.negate := by
  cases h with
  | ofBare h => exact ⟨.signed (.inr rfl) h, Numeral.value_minus h⟩
  | ofPlus h =>
    refine ⟨.signed (.inr rfl) h, ?_⟩
    rw [Numeral.value_minus h, Numeral.value_plus h]
  | toBare h =>
    refine ⟨.unsigned h, ?_⟩
    rw [Numeral.value_minus h, Number.negate_negate]
  | toPlus h =>
    refine ⟨.signed (.inl rfl) h, ?_⟩
    rw [Numeral.value_plus h, Numeral.value_minus h, Number.negate_negate]

-- ---------------------------------------------------------------------------
-- Evaluation
-- ---------------------------------------------------------------------------

section

variable {σ : Type}

theorem run_evaluate_numeral (settings : Settings) (sink : Option (Sink σ)) (trail : Trail σ)
    (hb : before.isAllBlank) (hn : Numeral body) (ha : after.isAllBlank) :
    trail.run (evaluate settings sink (before ++ body ++ after)) =
      (.ok hn.value,
        { trail with log := trail.log.add (.literal (before ++ body ++ after) hn.value) }) := by
  rw [evaluate, evaluateWithin, Level.ofText_literal hb hn ha]
  rfl

/-- A numeral between blanks has the number that is read from it, whatever the settings and the
sink. The sign of the number is the one that is written. Its magnitude is zero exactly if what is
written is at most half the least magnitude above zero, and infinite exactly from the bound of
overflow on. With the other sign in its place the text has the negated number. -/
theorem run_evaluate_literal (settings : Settings) (sink : Option (Sink σ)) (trail : Trail σ)
    (hb : before.isAllBlank) (hn : Numeral body) (ha : after.isAllBlank) :
    ∃ x m, Number.ofText? body = some x ∧ x = .signed (body.head? == some '-') m ∧
      trail.run (evaluate settings sink (before ++ body ++ after)) =
        (.ok x, { trail with log := trail.log.add (.literal (before ++ body ++ after) x) }) ∧
      (m = .zero ↔ body.significand * Nat.pow 2 1075 ≤ Nat.pow 10 body.places) ∧
      (m = .infinity ↔ Decimal.overflowBound * Nat.pow 10 body.places ≤ body.significand) ∧
      ∀ flipped, Opposite body flipped →
        (trail.run (evaluate settings sink (before ++ flipped ++ after))).1 = .ok x.negate := by
  refine ⟨hn.value, Decimal.nearest ⟨body.significand, -body.places⟩, hn.ofText?_eq, hn.value_eq,
    run_evaluate_numeral settings sink trail hb hn ha, Decimal.nearest_eq_zero_iff,
    Decimal.nearest_eq_infinity_iff, ?_⟩
  intro flipped hflip
  obtain ⟨hf, hvalue⟩ := hflip.exists_value hn
  rw [run_evaluate_numeral settings sink trail hb hf ha, hvalue]

end

theorem run_evaluate_literal_negativeZero :
    Text.isAllBlank ['\u2003'] = true ∧ Numeral ['-', '.', '0'] ∧ Text.isAllBlank ['\t'] = true ∧
      Opposite ['-', '.', '0'] ['.', '0'] ∧
      (Trail.run ⟨(), ⟨0, #[]⟩⟩
          (evaluate ⟨0, .left⟩ none ['\u2003', '-', '.', '0', '\t'])).1 =
        .ok (.signed true .zero) ∧
      (Trail.run ⟨(), ⟨0, #[]⟩⟩ (evaluate ⟨0, .left⟩ none ['\u2003', '.', '0', '\t'])).1 =
        .ok (.signed false .zero) := by
  have hunsigned : Unsigned ['.', '0'] := .fraction rfl (by simp)
  have hn : Numeral ['-', '.', '0'] := .signed (.inr rfl) hunsigned
  have hb : Text.isAllBlank ['\u2003'] = true := rfl
  have ha : Text.isAllBlank ['\t'] = true := rfl
  obtain ⟨x, m, -, rfl, hrun, hzero, -, hflip⟩ :=
    run_evaluate_literal ⟨0, .left⟩ none ⟨(), ⟨0, #[]⟩⟩ hb hn ha
  obtain rfl : m = .zero := hzero.mpr (by decide +kernel)
  exact ⟨hb, hn, ha, .toBare hunsigned, congrArg Prod.fst hrun, hflip _ (.toBare hunsigned)⟩

end Calculator
