import Calculator.Number.Decimal
import Calculator.Text.Digits

/-!
# Writing numbers

A magnitude is written as the decimal with the fewest digits that reads back as it, and of
those the nearest; a tie goes up. Grids of powers of ten are tried from coarse to fine, and
on each only the two neighbours of the value: if a point of a grid reads back, so does one
of them. No exponent is ever written, nor a point after a whole number. `nearest_shortest`
says that what is written reads back.
-/

namespace Calculator

namespace Magnitude

/-- The better one of the value's two neighbours among the multiples of a power of ten, if
one of them reads back. -/
def onGrid? (m : Magnitude) (exponent : Int) : Option Decimal :=
  let numerator := m.units * Nat.pow 10 (-exponent).toNat
  let denominator := unitsPerOne * Nat.pow 10 exponent.toNat
  let below : Decimal := ⟨numerator / denominator, exponent⟩
  let above : Decimal := ⟨numerator / denominator + 1, exponent⟩
  let belowReads := below.nearest = m
  let aboveReads := above.nearest = m
  if belowReads ∧ (¬ aboveReads ∨ 2 * (numerator % denominator) < denominator) then some below
  else if aboveReads then some above
  else none

/-- The exponent of a power of ten above a magnitude: 0.30103 exceeds the logarithm of two
to base ten, by so little that at most two powers lie between. -/
def coarsestGrid (m : Magnitude) : Int :=
  (((m.units.log2 : Int) - binaryPlaces) * 30103).fdiv 100000 + 2

def exact (m : Magnitude) : Decimal := ⟨m.units * Nat.pow 5 binaryPlaces, -binaryPlaces⟩

/-- Seventeen digits tell all magnitudes apart, so the finest of the grids always hits. -/
def shortest (m : Magnitude) : Decimal :=
  if m.rank = 0 then ⟨0, 0⟩
  else ((List.range 21).findSome? fun (i : Nat) => m.onGrid? (m.coarsestGrid - i)).getD m.exact

theorem nearest_of_onGrid? {m : Magnitude} {exponent : Int} {d : Decimal}
    (h : m.onGrid? exponent = some d) : d.nearest = m := by
  simp only [onGrid?] at h
  split at h
  case isTrue hb => exact Option.some.inj h ▸ hb.1
  case isFalse =>
    split at h
    case isTrue ha => exact Option.some.inj h ▸ ha
    case isFalse => contradiction

theorem units_pos {m : Magnitude} (h : m.rank ≠ 0) : 0 < m.units := by
  simp only [units, Nat.pow_eq]
  split
  · omega
  · exact Nat.mul_pos (by omega) (Nat.two_pow_pos _)

theorem nearest_exact {m : Magnitude} (h : m.rank ≠ 0) : m.exact.nearest = m := by
  have hu := units_pos h
  have hk : 0 < 5 ^ binaryPlaces := Nat.pow_pos (by decide)
  have hd : m.exact.digits ≠ 0 :=
    Nat.mul_ne_zero (Nat.pos_iff_ne_zero.mp hu) (Nat.pos_iff_ne_zero.mp hk)
  have hlog : binaryPlaces ≤ m.exact.digits.log2 := by
    rw [Nat.le_log2 hd]
    exact Nat.le_trans (Nat.pow_le_pow_left (by decide) _) (Nat.le_mul_of_pos_left _ hu)
  have hnum : m.exact.numerator = m.units * 5 ^ binaryPlaces := by
    simp [Decimal.numerator, exact]
  have hden : m.exact.denominator = unitsPerOne * 5 ^ binaryPlaces := by
    simp only [Decimal.denominator, exact, Int.neg_neg, Int.toNat_natCast, unitsPerOne,
      Nat.pow_eq, ← Nat.mul_pow]
  have hexp : m.exact.exponent = -binaryPlaces := rfl
  rw [Decimal.nearest, if_neg hd, if_neg (by omega), if_neg (by omega), hnum, hden,
    nearest_scale _ _ hk, nearest_units]

theorem nearest_shortest (m : Magnitude) : m.shortest.nearest = m := by
  unfold shortest
  by_cases h : m.rank = 0
  · rw [if_pos h]
    exact ofRank_eq h.symm
  · rw [if_neg h]
    cases hs : (List.range 21).findSome? fun (i : Nat) => m.onGrid? (m.coarsestGrid - i) with
    | none => exact nearest_exact h
    | some d =>
      obtain ⟨i, _, hi⟩ := List.exists_of_findSome?_eq_some hs
      exact nearest_of_onGrid? hi

end Magnitude

def Decimal.text (d : Decimal) : Text :=
  if 0 ≤ d.exponent then Text.digits d.digits ++ List.replicate d.exponent.toNat '0'
  else
    let places := (-d.exponent).toNat
    let digits := Text.digits d.digits
    let padded := List.replicate (places + 1 - digits.length) '0' ++ digits
    padded.take (padded.length - places) ++ '.' :: padded.drop (padded.length - places)

def Magnitude.text (m : Magnitude) : Text :=
  if m = .infinity then "inf".toList else m.shortest.text

def Number.text : Number → Text
  | nan | signallingNan => "NaN".toList
  | signed negative magnitude => (if negative then ['-'] else []) ++ magnitude.text

end Calculator
