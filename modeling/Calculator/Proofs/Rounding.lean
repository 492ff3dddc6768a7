import Calculator.Number.Decimal

/-!
# Rounding to zero and to infinity

A quotient is rounded to zero exactly if it is at most half the least magnitude above zero, and
to infinity exactly if it reaches the middle between the greatest finite magnitude and the power of
two above it. Between these bounds a decimal has a finite magnitude that is not zero.
-/

namespace Calculator

-- ---------------------------------------------------------------------------
-- Rounding to an integer
-- ---------------------------------------------------------------------------

variable {n d k : Nat}

theorem roundHalfEven_cases (n d : Nat) :
    roundHalfEven n d = n / d ∨ roundHalfEven n d = n / d + 1 := by
  unfold roundHalfEven
  simp only
  split
  · exact .inl rfl
  · exact .inr rfl

theorem le_roundHalfEven (hd : 0 < d) (h : k * d ≤ n) : k ≤ roundHalfEven n d := by
  have hq : k ≤ n / d := (Nat.le_div_iff_mul_le hd).mpr h
  rcases roundHalfEven_cases n d with hr | hr <;> omega

theorem roundHalfEven_le (hd : 0 < d) (h : n < k * d) : roundHalfEven n d ≤ k := by
  have hq : n / d < k := (Nat.div_lt_iff_lt_mul hd).mpr h
  rcases roundHalfEven_cases n d with hr | hr <;> omega

theorem lt_roundHalfEven_iff (k : Nat) (hd : 0 < d) :
    k < roundHalfEven n d ↔
      (2 * k + 1) * d < 2 * n ∨ (2 * k + 1) * d = 2 * n ∧ k % 2 = 1 := by
  have hn : n / d * d + n % d = n := by rw [Nat.mul_comm, Nat.div_add_mod]
  have hr : n % d < d := Nat.mod_lt n hd
  have hk : (2 * k + 1) * d = 2 * (k * d) + d := by rw [Nat.add_mul, Nat.mul_assoc, Nat.one_mul]
  rcases Nat.lt_trichotomy k (n / d) with h | h | h
  · have hmul := Nat.mul_le_mul_right d h
    rw [Nat.succ_mul] at hmul
    rcases roundHalfEven_cases n d with hround | hround <;> omega
  · rw [← h] at hn
    unfold roundHalfEven
    simp only [← h]
    split <;> omega
  · have hmul := Nat.mul_le_mul_right d h
    rw [Nat.succ_mul] at hmul
    rcases roundHalfEven_cases n d with hround | hround <;> omega

-- ---------------------------------------------------------------------------
-- Rounding to a magnitude
-- ---------------------------------------------------------------------------

namespace Magnitude

/-- The power of two by which ranks are spaced next to a number of units. -/
def scale (units : Nat) : Nat := units.log2 - 52

theorem nearest_eq (n d : Nat) :
    nearest n d = ofRank (scale (n * unitsPerOne / d) * Nat.pow 2 52 +
      roundHalfEven (n * unitsPerOne) (d * Nat.pow 2 (scale (n * unitsPerOne / d)))) := rfl

theorem lt_of_scale (u : Nat) (hd : 0 < d) : u < Nat.pow 2 53 * (d * Nat.pow 2 (scale (u / d))) := by
  have hlog : u / d < 2 ^ ((u / d).log2 + 1) := Nat.lt_log2_self
  have hpow : 2 ^ ((u / d).log2 + 1) ≤ 2 ^ (53 + scale (u / d)) :=
    Nat.pow_le_pow_right (by decide) (by unfold scale; omega)
  have hlt := (Nat.div_lt_iff_lt_mul hd).mp (Nat.lt_of_lt_of_le hlog hpow)
  rw [Nat.pow_add, Nat.mul_assoc, Nat.mul_comm _ d] at hlt
  exact hlt

theorem le_of_scale_pos (u : Nat) (hd : 0 < d) (h : 0 < scale (u / d)) :
    Nat.pow 2 52 * (d * Nat.pow 2 (scale (u / d))) ≤ u := by
  have hlog : (u / d).log2 = 52 + scale (u / d) := by unfold scale at h ⊢; omega
  have hne : u / d ≠ 0 := by
    intro hzero
    rw [hzero] at hlog
    contradiction
  have hle : 2 ^ (u / d).log2 ≤ u / d := Nat.log2_self_le hne
  rw [hlog, Nat.le_div_iff_mul_le hd, Nat.pow_add, Nat.mul_assoc, Nat.mul_comm _ d] at hle
  exact hle

theorem ofRank_eq_zero_iff {rank : Nat} : ofRank rank = zero ↔ rank = 0 := by
  have hpos : 0 < infinityRank := by decide
  simp only [ofRank, zero, mk.injEq]
  omega

theorem ofRank_eq_infinity_iff {rank : Nat} : ofRank rank = infinity ↔ infinityRank ≤ rank := by
  simp only [ofRank, infinity, mk.injEq]
  omega

theorem nearest_eq_zero_iff (hd : 0 < d) : nearest n d = zero ↔ 2 * (n * unitsPerOne) ≤ d := by
  have hzero : roundHalfEven (n * unitsPerOne) d = 0 ↔ 2 * (n * unitsPerOne) ≤ d := by
    have h := @lt_roundHalfEven_iff (n * unitsPerOne) d 0 hd
    omega
  have hone : d * Nat.pow 2 0 = d := Nat.mul_one d
  rw [nearest_eq, ofRank_eq_zero_iff, Nat.add_eq_zero_iff, Nat.mul_eq_zero]
  constructor
  · rintro ⟨hscale | hpow, hround⟩
    · rw [hscale, hone] at hround
      exact hzero.mp hround
    · exact absurd hpow (by decide)
  · intro h
    have hscale : scale (n * unitsPerOne / d) = 0 := by
      rw [Nat.div_eq_of_lt (by omega)]
      rfl
    rw [hscale, hone]
    exact ⟨.inl rfl, hzero.mpr h⟩

@[irreducible] def topScale : Nat := 2045

theorem infinityRank_eq : infinityRank = (topScale + 2) * Nat.pow 2 52 := by
  unfold topScale
  rfl

theorem mul_two_pow_le {e e' : Nat} (d : Nat) (h : e < e') :
    2 * (d * Nat.pow 2 e) ≤ d * Nat.pow 2 e' := by
  have hpow : 2 ^ (e + 1) ≤ 2 ^ e' := Nat.pow_le_pow_right (by decide) h
  rw [Nat.pow_succ] at hpow
  rw [Nat.mul_left_comm, Nat.mul_comm 2]
  exact Nat.mul_le_mul_left d hpow

/-- Infinity is one rank above the greatest finite magnitude, so it takes what is rounded up from
there, and a tie goes to it because its rank is even. -/
theorem nearest_eq_infinity_iff (hd : 0 < d) :
    nearest n d = infinity ↔
      (2 * (Nat.pow 2 53 - 1) + 1) * (d * Nat.pow 2 topScale) ≤ 2 * (n * unitsPerOne) := by
  rw [nearest_eq, ofRank_eq_infinity_iff, infinityRank_eq]
  have hlt := lt_of_scale (n * unitsPerOne) hd
  have hle := le_of_scale_pos (n * unitsPerOne) hd
  generalize scale (n * unitsPerOne / d) = s at hlt hle ⊢
  generalize n * unitsPerOne = u at hlt hle ⊢
  have hpos (e : Nat) : 0 < d * Nat.pow 2 e := Nat.mul_pos hd (Nat.two_pow_pos e)
  have hmiddle := @lt_roundHalfEven_iff u _ (Nat.pow 2 53 - 1) (hpos topScale)
  have hodd : (Nat.pow 2 53 - 1) % 2 = 1 := by decide
  have hdouble : Nat.pow 2 53 = 2 * Nat.pow 2 52 := by decide
  have hone : 0 < Nat.pow 2 52 := by decide
  rw [hdouble] at hlt hmiddle hodd ⊢
  generalize Nat.pow 2 52 = p at *
  constructor
  · intro h
    have hround := roundHalfEven_le (hpos s) hlt
    have hscale : topScale ≤ s := by
      refine Nat.le_of_mul_le_mul_right ?_ hone
      rw [Nat.add_mul] at h
      omega
    rcases Nat.lt_or_eq_of_le hscale with hs | rfl
    · have hhigh := hle (Nat.zero_lt_of_lt hs)
      have hup := Nat.mul_le_mul_left p (mul_two_pow_le d hs)
      rw [Nat.mul_left_comm] at hup
      have hsub := Nat.mul_le_mul_right (d * Nat.pow 2 topScale)
        (show 2 * (2 * p - 1) + 1 ≤ 4 * p by omega)
      rw [Nat.mul_assoc] at hsub
      omega
    · rw [Nat.add_mul] at h
      rcases hmiddle.mp (by omega) with hover | ⟨htie, -⟩
      · exact Nat.le_of_lt hover
      · exact Nat.le_of_eq htie
  · intro h
    have hscale : topScale ≤ s := by
      refine Nat.le_of_not_lt fun hs => ?_
      have hup := Nat.mul_le_mul_left (2 * p) (mul_two_pow_le d hs)
      rw [Nat.mul_left_comm] at hup
      have hsub := Nat.mul_le_mul_right (d * Nat.pow 2 topScale)
        (show 2 * p ≤ 2 * (2 * p - 1) + 1 by omega)
      omega
    rcases Nat.lt_or_eq_of_le hscale with hs | rfl
    · have hround := le_roundHalfEven (hpos s) (hle (Nat.zero_lt_of_lt hs))
      have hup := Nat.mul_le_mul_right p hs
      rw [Nat.succ_mul] at hup
      rw [Nat.add_mul]
      omega
    · have hround : 2 * p - 1 < roundHalfEven u (d * Nat.pow 2 topScale) := by
        refine hmiddle.mpr ?_
        rcases Nat.lt_or_eq_of_le h with hover | htie
        · exact .inl hover
        · exact .inr ⟨htie, hodd⟩
      rw [Nat.add_mul]
      omega

end Magnitude

-- ---------------------------------------------------------------------------
-- Rounding a decimal
-- ---------------------------------------------------------------------------

namespace Decimal

theorem two_mul_units_le {p : Nat} (h : n.log2 + 400 < p) :
    2 * (n * unitsPerOne) ≤ Nat.pow 10 p := by
  have hb : binaryPlaces = 1074 := by
    unfold binaryPlaces
    rfl
  have hn : n ≤ 2 ^ (n.log2 + 1) := Nat.le_of_lt Nat.lt_log2_self
  calc 2 * (n * unitsPerOne)
    _ ≤ 2 * (2 ^ (n.log2 + 1) * 2 ^ binaryPlaces) :=
      Nat.mul_le_mul_left 2 (Nat.mul_le_mul_right _ hn)
    _ = 2 ^ (n.log2 + 1 + binaryPlaces + 1) := by rw [← Nat.pow_add, Nat.mul_comm, ← Nat.pow_succ]
    _ ≤ 2 ^ (3 * p) := Nat.pow_le_pow_right (by decide) (by omega)
    _ = 8 ^ p := Nat.pow_mul 2 3 p
    _ ≤ Nat.pow 10 p := Nat.pow_le_pow_left (by decide) p

theorem nearest_of_places (n p : Nat) :
    nearest ⟨n, -p⟩ = Magnitude.nearest n (Nat.pow 10 p) := by
  have hden : 0 < Nat.pow 10 p := Nat.pow_pos (by decide)
  have hzero (h : 2 * (n * unitsPerOne) ≤ Nat.pow 10 p) :
      Magnitude.zero = Magnitude.nearest n (Nat.pow 10 p) :=
    ((Magnitude.nearest_eq_zero_iff hden).mpr h).symm
  unfold nearest
  simp only
  split
  case isTrue h => exact hzero (by simp [h])
  case isFalse =>
  split
  case isTrue h => omega
  case isFalse =>
  split
  case isTrue h => exact hzero (two_mul_units_le (by omega))
  case isFalse => simp [numerator, denominator]

theorem two_pow_binaryPlaces_succ : Nat.pow 2 (binaryPlaces + 1) = 2 * unitsPerOne := Nat.mul_comm ..

theorem nearest_eq_zero_iff {p : Nat} :
    nearest ⟨n, -p⟩ = .zero ↔ n * Nat.pow 2 1075 ≤ Nat.pow 10 p := by
  have hden : 0 < Nat.pow 10 p := Nat.pow_pos (by decide)
  have hplaces : 1075 = binaryPlaces + 1 := by
    unfold binaryPlaces
    rfl
  rw [nearest_of_places, Magnitude.nearest_eq_zero_iff hden, hplaces, two_pow_binaryPlaces_succ,
    Nat.mul_left_comm]

/-- The middle between the greatest finite magnitude, which is 2^53 - 1 times two to the power of
971, and two to the power of 1024. -/
@[irreducible] def overflowBound : Nat := (Nat.pow 2 54 - 1) * Nat.pow 2 970

theorem overflowBound_mul : overflowBound * (2 * unitsPerOne) =
    (2 * (Nat.pow 2 53 - 1) + 1) * Nat.pow 2 Magnitude.topScale := by
  decide +kernel

theorem nearest_eq_infinity_iff {p : Nat} :
    nearest ⟨n, -p⟩ = .infinity ↔ overflowBound * Nat.pow 10 p ≤ n := by
  have hden : 0 < Nat.pow 10 p := Nat.pow_pos (by decide)
  have htwo : 0 < 2 * unitsPerOne := Nat.mul_pos (by decide) unitsPerOne_pos
  rw [nearest_of_places, Magnitude.nearest_eq_infinity_iff hden, Nat.mul_left_comm,
    ← overflowBound_mul, ← Nat.mul_assoc, Nat.mul_left_comm 2, Nat.mul_le_mul_right_iff htwo,
    Nat.mul_comm]

end Decimal

end Calculator
