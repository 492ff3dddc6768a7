import Calculator.Number

/-!
# Decimals and the nearest magnitude

A decimal is a number of digits times a power of ten. `nearest` rounds a quotient to the
nearest magnitude, a tie to the one of even rank; the arithmetic is exact. A finite
magnitude is the nearest to its own value (`nearest_units`).
-/

namespace Calculator

def roundHalfEven (numerator denominator : Nat) : Nat :=
  let quotient := numerator / denominator
  let twice := 2 * (numerator % denominator)
  if twice < denominator ∨ twice = denominator ∧ quotient % 2 = 0 then quotient else quotient + 1

theorem roundHalfEven_mul_left (n : Nat) {d : Nat} (hd : 0 < d) : roundHalfEven (n * d) d = n := by
  simp [roundHalfEven, Nat.mul_div_cancel n hd, hd]

theorem roundHalfEven_scale (n d : Nat) {k : Nat} (hk : 0 < k) :
    roundHalfEven (n * k) (d * k) = roundHalfEven n d := by
  have hlt (a : Nat) : 2 * (a * k) < d * k ↔ 2 * a < d := by
    rw [← Nat.mul_assoc]
    exact Nat.mul_lt_mul_right hk
  have heq (a : Nat) : 2 * (a * k) = d * k ↔ 2 * a = d := by
    rw [← Nat.mul_assoc]
    exact Nat.mul_left_inj (Nat.pos_iff_ne_zero.mp hk)
  simp only [roundHalfEven, Nat.mul_div_mul_right _ _ hk, Nat.mul_mod_mul_right, hlt, heq]

/-- The magnitude nearest to a quotient. Ranks are evenly spaced between two powers of two,
so the quotient is rounded to an integer on the scale of its own power. -/
def Magnitude.nearest (numerator denominator : Nat) : Magnitude :=
  let units := numerator * unitsPerOne
  let scale := (units / denominator).log2 - 52
  ofRank (scale * Nat.pow 2 52 + roundHalfEven units (denominator * Nat.pow 2 scale))

theorem Magnitude.nearest_scale (n d : Nat) {k : Nat} (hk : 0 < k) :
    nearest (n * k) (d * k) = nearest n d := by
  have hn : n * k * unitsPerOne = n * unitsPerOne * k := Nat.mul_right_comm ..
  have hd (s : Nat) : d * k * Nat.pow 2 s = d * Nat.pow 2 s * k := Nat.mul_right_comm ..
  simp only [nearest, hn, hd, Nat.mul_div_mul_right _ _ hk, roundHalfEven_scale _ _ hk]

theorem log2_mul_two_pow {m e : Nat} (h : Nat.pow 2 52 ≤ m) (h' : m < Nat.pow 2 53) :
    (m * Nat.pow 2 e).log2 = 52 + e := by
  rw [Nat.pow_eq] at h h' ⊢
  have hne : m * 2 ^ e ≠ 0 := Nat.mul_ne_zero (by omega) (by simp)
  rw [Nat.log2_eq_iff hne]
  refine ⟨?_, ?_⟩
  · rw [Nat.pow_add]
    exact Nat.mul_le_mul_right _ h
  · rw [show 52 + e + 1 = 53 + e by omega, Nat.pow_add]
    exact Nat.mul_lt_mul_of_pos_right h' (Nat.two_pow_pos e)

theorem Magnitude.nearest_units (m : Magnitude) : nearest m.units unitsPerOne = m := by
  have hround (n s : Nat) :
      roundHalfEven (n * 2 ^ s * unitsPerOne) (unitsPerOne * 2 ^ s) = n := by
    rw [Nat.mul_comm unitsPerOne (2 ^ s), roundHalfEven_scale _ _ unitsPerOne_pos]
    exact roundHalfEven_mul_left n (Nat.two_pow_pos s)
  have hlow : m.rank % 2 ^ 52 < 2 ^ 52 := Nat.mod_lt _ (Nat.two_pow_pos 52)
  simp only [nearest, Nat.mul_div_cancel _ unitsPerOne_pos, units, Nat.pow_eq]
  by_cases he : m.rank / 2 ^ 52 = 0
  · have hs : (m.rank % 2 ^ 52).log2 - 52 = 0 := by
      by_cases h0 : m.rank % 2 ^ 52 = 0
      · rw [h0]
        rfl
      · have := (Nat.log2_lt h0).mpr hlow
        omega
    have hr := hround (m.rank % 2 ^ 52) 0
    simp only [Nat.pow_zero, Nat.mul_one] at hr
    simp only [if_pos he, hs, Nat.pow_zero, Nat.mul_one, hr]
    exact ofRank_eq (by omega)
  · have hs : ((2 ^ 52 + m.rank % 2 ^ 52) * 2 ^ (m.rank / 2 ^ 52 - 1)).log2 - 52 =
        m.rank / 2 ^ 52 - 1 := by
      change (_ * Nat.pow 2 _).log2 - 52 = _
      rw [log2_mul_two_pow (by rw [Nat.pow_eq]; omega) (by rw [Nat.pow_eq]; omega)]
      omega
    rw [if_neg he, hs, hround]
    exact ofRank_eq (by omega)

/-- Stands for digits · 10 ^ exponent. -/
structure Decimal where
  digits : Nat
  exponent : Int
  deriving DecidableEq, Repr

namespace Decimal

def numerator (d : Decimal) : Nat := d.digits * Nat.pow 10 d.exponent.toNat

def denominator (d : Decimal) : Nat := Nat.pow 10 (-d.exponent).toNat

/-- The nearest magnitude. A decimal that is beyond all magnitudes, or below half the least
one, by its exponent alone is not worked out: its power of ten may be huge. -/
def nearest (d : Decimal) : Magnitude :=
  if d.digits = 0 then .zero
  else if 400 < d.exponent then .infinity
  else if d.exponent + d.digits.log2 < -400 then .zero
  else .nearest d.numerator d.denominator

end Decimal

end Calculator
