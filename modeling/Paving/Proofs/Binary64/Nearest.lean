import Mathlib.Tactic.Linarith
import Paving.Binary64.Arithmetic
import Paving.Proofs.Binary64.Value

/-!
# Rounding to nearest

Rounding a ratio to the nearest magnitude is rounding to a whole number of steps.
The index it answers with is never more than one off on either side: the ratio lies
strictly below the next magnitude (`lt_of_nearestIndex_lt`), and either the rounded
magnitude is not above the ratio or the one before it is strictly below
(`nearestIndex_le_or`). These two facts hold also at the ends of a binade and where
the largest finite magnitude is passed; they are all that directed rounding needs.
-/

set_option autoImplicit false

namespace Paving

/-! ## Rounding to an integer -/

/-- The rounded quotient is at most half a divisor off. -/
theorem roundHalfEven_bounds (num : Nat) {den : Nat} (hden : 0 < den) :
    2 * (roundHalfEven num den * den) ≤ 2 * num + den ∧
      2 * num ≤ 2 * (roundHalfEven num den * den) + den := by
  have hdiv := Nat.div_add_mod num den
  have hmod := Nat.mod_lt num hden
  have hcomm : den * (num / den) = num / den * den := Nat.mul_comm _ _
  have hsucc : (num / den + 1) * den = num / den * den + den := Nat.succ_mul _ _
  -- The remainder decides: rounded down, rounded up, or a tie.
  rw [roundHalfEven]
  split
  · omega
  · split
    · omega
    · rcases Nat.mod_two_eq_zero_or_one (num / den) with h | h
      · rw [h, Nat.add_zero]
        omega
      · rw [h, hsucc]
        omega

theorem div_le_roundHalfEven (num den : Nat) : num / den ≤ roundHalfEven num den := by
  rw [roundHalfEven]
  split
  · exact Nat.le_refl _
  · split
    · exact Nat.le_succ _
    · exact Nat.le_add_right _ _

theorem roundHalfEven_le_div_succ (num den : Nat) : roundHalfEven num den ≤ num / den + 1 := by
  have := Nat.mod_lt (num / den) (show 0 < 2 by decide)
  rw [roundHalfEven]
  split
  · exact Nat.le_succ _
  · split
    · exact Nat.le_refl _
    · omega

namespace Binary64

/-! ## The step and the significand -/

/-- The exponent of the step between magnitudes near `num / den` units. -/
def stepExponent (num den : Nat) : Nat :=
  (num / den).log2 - 52

/-- The ratio `num / den` as a whole number of steps. -/
def significand (num den : Nat) : Nat :=
  roundHalfEven num (den <<< stepExponent num den)

theorem nearestIndex_eq (num den : Nat) : nearestIndex num den =
    min infinityIndex (stepExponent num den * binade + significand num den) :=
  rfl

theorem shiftLeft_pos {den : Nat} (hden : 0 < den) (k : Nat) : 0 < den <<< k := by
  rw [Nat.shiftLeft_eq]
  exact Nat.mul_pos hden (Nat.two_pow_pos k)

/-- Magnitudes with a significand of 53 bits, or less with the least step. -/
theorem magnitudeUnits_steps {k m : Nat} (hm : m ≤ 2 * binade) (h : k = 0 ∨ binade ≤ m) :
    magnitudeUnits (k * binade + m) = m * 2 ^ k := by
  simp only [magnitudeUnits, binade, Nat.shiftLeft_eq] at *
  by_cases hsub : k * 4503599627370496 + m < 4503599627370496
  · have hk : k = 0 := by omega
    rw [if_pos hsub, hk]
    omega
  · rw [if_neg hsub]
    by_cases htop : m = 2 * 4503599627370496
    · -- The significand was rounded up to the next binade.
      have hdiv : (k * 4503599627370496 + m) / 4503599627370496 - 1 = k + 1 := by omega
      have hmod : (k * 4503599627370496 + m) % 4503599627370496 = 0 := by omega
      rw [hdiv, hmod, htop, Nat.pow_succ]
      ring
    · have hdiv : (k * 4503599627370496 + m) / 4503599627370496 - 1 = k := by omega
      have hmod : 4503599627370496 + (k * 4503599627370496 + m) % 4503599627370496 = m := by omega
      rw [hdiv, hmod]

theorem two_pow_le_div {num den : Nat} (h : stepExponent num den ≠ 0) :
    2 ^ (stepExponent num den + 52) ≤ num / den := by
  have hlog : (num / den).log2 = stepExponent num den + 52 := by
    unfold stepExponent at h ⊢
    omega
  have hne : num / den ≠ 0 := by
    intro h0
    rw [h0, Nat.log2_zero] at hlog
    omega
  rw [← hlog]
  exact Nat.log2_self_le hne

theorem div_lt_two_pow (num den : Nat) : num / den < 2 ^ (stepExponent num den + 53) := by
  have hlt := Nat.lt_log2_self (n := num / den)
  refine Nat.lt_of_lt_of_le hlt (Nat.pow_le_pow_right (by decide) ?_)
  rw [stepExponent]
  omega

theorem binade_eq : binade = 2 ^ 52 := by
  decide

theorem binade_le_significand {num den : Nat} (h : stepExponent num den ≠ 0) :
    binade ≤ significand num den := by
  refine Nat.le_trans ?_ (div_le_roundHalfEven _ _)
  rw [Nat.shiftLeft_eq, ← Nat.div_div_eq_div_mul,
    Nat.le_div_iff_mul_le (Nat.two_pow_pos _), binade_eq, ← Nat.pow_add, Nat.add_comm]
  exact two_pow_le_div h

theorem significand_le (num den : Nat) : significand num den ≤ 2 * binade := by
  refine Nat.le_trans (roundHalfEven_le_div_succ _ _) ?_
  have hlt : num / (den <<< stepExponent num den) < 2 * binade := by
    have htwo : 2 * binade = 2 ^ 53 := by decide
    rw [Nat.shiftLeft_eq, ← Nat.div_div_eq_div_mul,
      Nat.div_lt_iff_lt_mul (Nat.two_pow_pos _), htwo, ← Nat.pow_add, Nat.add_comm]
    exact div_lt_two_pow num den
  exact hlt

/-- The magnitude of the rounded ratio, when it is not cut off at infinity. -/
theorem magnitudeUnits_nearest (num den : Nat) :
    magnitudeUnits (stepExponent num den * binade + significand num den) =
      significand num den * 2 ^ stepExponent num den := by
  refine magnitudeUnits_steps (significand_le num den) ?_
  by_cases h : stepExponent num den = 0
  · exact .inl h
  · exact .inr (binade_le_significand h)

/-- The rounded magnitude is at most half a step off. -/
theorem nearest_bounds (num : Nat) {den : Nat} (hden : 0 < den) :
    2 * (significand num den * 2 ^ stepExponent num den * den) ≤
        2 * num + den * 2 ^ stepExponent num den ∧
      2 * num ≤ 2 * (significand num den * 2 ^ stepExponent num den * den) +
        den * 2 ^ stepExponent num den := by
  have h := roundHalfEven_bounds num (shiftLeft_pos hden (stepExponent num den))
  rw [Nat.shiftLeft_eq] at h
  have hassoc : significand num den * 2 ^ stepExponent num den * den =
      significand num den * (den * 2 ^ stepExponent num den) := by
    rw [Nat.mul_assoc, Nat.mul_comm (2 ^ _) den]
  rw [hassoc]
  rw [significand]
  rw [Nat.shiftLeft_eq]
  exact h

/-! ## Neighbours of the rounded ratio -/

/-- The magnitude after the rounded one is at least a step away. -/
theorem nearest_add_step_le (num den : Nat) :
    significand num den * 2 ^ stepExponent num den + 2 ^ stepExponent num den ≤
      magnitudeUnits (stepExponent num den * binade + significand num den + 1) := by
  rw [magnitudeUnits_succ, magnitudeUnits_nearest]
  refine Nat.add_le_add_left (Nat.pow_le_pow_right (by decide) ?_) _
  by_cases h : stepExponent num den = 0
  · omega
  · have hm := binade_le_significand h
    have : stepExponent num den + 1 ≤
        (stepExponent num den * binade + significand num den) / binade := by
      rw [Nat.le_div_iff_mul_le (by decide), Nat.succ_mul]
      omega
    omega

/-- The ratio lies below the magnitude after the rounded one. -/
theorem lt_nearest_succ {num den : Nat} (hden : 0 < den) :
    num < magnitudeUnits (stepExponent num den * binade + significand num den + 1) * den := by
  -- Half a step is lost by rounding, and the next magnitude is at least a step away.
  have hbound := (nearest_bounds num hden).2
  have hgap := Nat.mul_le_mul_right den (nearest_add_step_le num den)
  have hpos : 0 < den * 2 ^ stepExponent num den := Nat.mul_pos hden (Nat.two_pow_pos _)
  rw [Nat.add_mul, Nat.mul_comm (2 ^ _) den] at hgap
  omega

/-- If the rounded magnitude is above the ratio, the ratio is not below the halfway
point between it and the one before it. -/
theorem halfway_le_of_lt_nearest {num den : Nat} (hden : 0 < den)
    (h : num < significand num den * 2 ^ stepExponent num den * den) :
    ∃ k, stepExponent num den * binade + significand num den = k + 1 ∧
      (magnitudeUnits k + magnitudeUnits (k + 1)) * den ≤ 2 * num := by
  have hbound := (nearest_bounds num hden).1
  have hnormal : stepExponent num den = 0 ∨ binade + 1 ≤ significand num den := by
    by_cases h0 : stepExponent num den = 0
    · exact .inl h0
    · refine .inr (Nat.succ_le_of_lt (Nat.lt_of_le_of_ne (binade_le_significand h0) ?_))
      -- The least significand is only reached from above.
      intro heq
      have hq : 2 ^ (stepExponent num den + 52) * den ≤ num :=
        (Nat.le_div_iff_mul_le hden).1 (two_pow_le_div h0)
      rw [← heq, binade_eq, ← Nat.pow_add, Nat.add_comm] at h
      omega
  -- So one step less keeps a significand that the index can express.
  obtain ⟨m, hm⟩ : ∃ m, significand num den = m + 1 := by
    refine ⟨significand num den - 1, ?_⟩
    have : significand num den ≠ 0 := by
      intro h0
      rw [h0, Nat.zero_mul, Nat.zero_mul] at h
      exact absurd h (Nat.not_lt_zero _)
    omega
  have hle := significand_le num den
  refine ⟨stepExponent num den * binade + m, by omega, ?_⟩
  have hsplit : (m + 1) * 2 ^ stepExponent num den * den =
      m * 2 ^ stepExponent num den * den + den * 2 ^ stepExponent num den := by
    ring
  rw [Nat.add_assoc _ m 1, magnitudeUnits_steps (by omega) (by omega),
    magnitudeUnits_steps (by omega) (by omega), Nat.add_mul, hsplit]
  rw [hm, hsplit] at hbound
  omega

/-- If the rounded magnitude is above the ratio, the one before it is below. -/
theorem nearest_pred_lt {num den : Nat} (hden : 0 < den)
    (h : num < significand num den * 2 ^ stepExponent num den * den) :
    ∃ k, stepExponent num den * binade + significand num den = k + 1 ∧
      magnitudeUnits k * den < num := by
  obtain ⟨k, hk, hhalf⟩ := halfway_le_of_lt_nearest hden h
  refine ⟨k, hk, ?_⟩
  rw [← magnitudeUnits_nearest, hk] at h
  rw [Nat.add_mul] at hhalf
  omega

/-- A rounded ratio is below the next magnitude, unless it is cut off at infinity. -/
theorem lt_of_nearestIndex_lt {num den : Nat} (hden : 0 < den)
    (h : nearestIndex num den < infinityIndex) :
    num < magnitudeUnits (nearestIndex num den + 1) * den := by
  have hindex : nearestIndex num den = stepExponent num den * binade + significand num den := by
    rw [nearestIndex_eq] at h ⊢
    omega
  rw [hindex]
  exact lt_nearest_succ hden

/-- A rounded ratio is not below its magnitude, or it is above the one before. -/
theorem nearestIndex_le_or (num : Nat) {den : Nat} (hden : 0 < den) :
    magnitudeUnits (nearestIndex num den) * den ≤ num ∨
      ∃ k, nearestIndex num den = k + 1 ∧ magnitudeUnits k * den < num := by
  -- Rounded down the magnitude is not above the ratio; rounded up the one before it is below.
  by_cases hle : significand num den * 2 ^ stepExponent num den * den ≤ num
  · left
    refine Nat.le_trans (Nat.mul_le_mul_right den ?_) hle
    rw [← magnitudeUnits_nearest, nearestIndex_eq]
    exact magnitudeUnits_strictMono.monotone (Nat.min_le_right _ _)
  · obtain ⟨k, hk, hlt⟩ := nearest_pred_lt hden (Nat.lt_of_not_le hle)
    by_cases hcut : k + 1 ≤ infinityIndex
    · right
      refine ⟨k, ?_, hlt⟩
      rw [nearestIndex_eq, hk]
      exact Nat.min_eq_right hcut
    · left
      -- Cut off at infinity: the ratio is beyond the magnitude at that index as well.
      have hindex : nearestIndex num den = infinityIndex := by
        rw [nearestIndex_eq, hk]
        exact Nat.min_eq_left (by omega)
      rw [hindex]
      refine Nat.le_of_lt (Nat.lt_of_le_of_lt (Nat.mul_le_mul_right den ?_) hlt)
      exact magnitudeUnits_strictMono.monotone (by omega)

/-- Only ratios up to one half are rounded to zero. -/
theorem nearestIndex_eq_zero_iff (num : Nat) {den : Nat} (hden : 0 < den) :
    nearestIndex num den = 0 ↔ 2 * num ≤ den := by
  have hinf : infinityIndex = 9218868437227405312 := rfl
  constructor
  · intro h
    have hsum : stepExponent num den * binade + significand num den = 0 := by
      rw [nearestIndex_eq] at h
      omega
    have hsig : significand num den = 0 := by omega
    have hstep : stepExponent num den = 0 := by
      by_contra hne
      have := binade_le_significand hne
      have : binade = 4503599627370496 := rfl
      omega
    have hbound := (nearest_bounds num hden).2
    rw [hsig, hstep] at hbound
    omega
  · intro h
    have hdiv : num / den = 0 := Nat.div_eq_of_lt (by omega)
    have hstep : stepExponent num den = 0 := by
      rw [stepExponent, hdiv, Nat.log2_zero]
    have hsig : significand num den = 0 := by
      have hmod : num % den = num := Nat.mod_eq_of_lt (by omega)
      unfold significand roundHalfEven
      rw [hstep, Nat.shiftLeft_zero]
      dsimp only
      rw [hdiv, hmod]
      split
      · rfl
      · split
        · omega
        · rfl
    rw [nearestIndex_eq, hstep, hsig]
    omega

end Binary64

end Paving
