import Paving.Proofs.Binary64.Roundings

/-!
# Magnitudes at which roundings are never misled

A product of two numbers is a multiple of a power of two that is at most 106 bits
short of it (`pow_dvd_units_mul`). A residual is the difference between such a
product and a multiple of the unit, so if the numbers are large enough it is a
multiple of the unit as well, and one that the error term does not show is zero
(`eq_of_residual_le`).

`Safe` numbers are infinite, zero, or of a magnitude between `2^-480` and `2^480`.
Their sums stay far from overflow, and the residuals of their products, quotients and
roots are large enough, so no directed operation on them is misled
(`not_misled_sum`, `not_misled_product`, `not_misled_quotient`, `not_misled_root`). The
true limit lies far below: a product, a dividend or a radicand of at least `2^-969` is
enough (`magnitude_of_misled`). A width `ub - lb`, rounded up, is never misled at any
magnitude (`not_misled_width`): where its error is lost, it was rounded up already.
-/

set_option autoImplicit false

namespace Paving

namespace Binary64

/-! ## Residuals -/

theorem unitsPerOne_eq : unitsPerOne = 2 ^ 1074 := by
  decide +kernel

section Residuals

variable {x y : Binary64} {m : Int}

/-- A product is a multiple of the product of the steps of its factors. -/
theorem pow_dvd_units_mul {k n : Nat}
    (h : (2 ^ 53 - 1) * (2 ^ 53 - 1) * 2 ^ k < (x.units * y.units).natAbs) (hn : n ≤ k + 1) :
    ((2 ^ n : Nat) : Int) ∣ x.units * y.units := by
  have hx := hasStep_units x
  have hy := hasStep_units y
  have hle : (x.units * y.units).natAbs ≤
      (2 ^ 53 - 1) * (2 ^ 53 - 1) * 2 ^ (x.exponent + y.exponent) := by
    calc (x.units * y.units).natAbs
        = x.units.natAbs * y.units.natAbs := Int.natAbs_mul _ _
      _ ≤ ((2 ^ 53 - 1) * 2 ^ x.exponent) * ((2 ^ 53 - 1) * 2 ^ y.exponent) :=
        Nat.mul_le_mul hx.le hy.le
      _ = (2 ^ 53 - 1) * (2 ^ 53 - 1) * 2 ^ (x.exponent + y.exponent) := by
        rw [Nat.pow_add]
        ring
  have hlt : k < x.exponent + y.exponent :=
    (Nat.pow_lt_pow_iff_right (by decide)).1 (Nat.lt_of_mul_lt_mul_left (Nat.lt_of_lt_of_le h hle))
  have hsteps : ((2 ^ (x.exponent + y.exponent) : Nat) : Int) ∣ x.units * y.units := by
    rw [Nat.pow_add, Int.natCast_mul]
    exact Int.mul_dvd_mul hx.dvd hy.dvd
  exact Int.dvd_trans (pow_dvd (Nat.le_trans hn hlt)) hsteps

/-- A residual that the error term does not show is zero, provided that its parts are
at least `2^1179`, which stands for `2^-969`. -/
theorem eq_of_residual_le (hm : (unitsPerOne : Int) ∣ m)
    (hlarge : 2 ^ 1179 ≤ m.natAbs ∨ 2 ^ 1179 ≤ (x.units * y.units).natAbs)
    (hsmall : 2 * (m - x.units * y.units).natAbs ≤ unitsPerOne) : m = x.units * y.units := by
  have hproduct : (2 ^ 53 - 1) * (2 ^ 53 - 1) * 2 ^ 1073 < (x.units * y.units).natAbs := by
    have hpos : 0 < 2 ^ 1073 := pow_pos Nat.two_pos _
    have hsplit : 2 ^ 1179 = 2 ^ 106 * 2 ^ 1073 := by rw [← pow_add]
    have hdouble : 2 ^ 1074 = 2 ^ 1073 * 2 := by rw [← pow_succ]
    rw [hsplit] at hlarge
    rw [unitsPerOne_eq, hdouble] at hsmall
    generalize 2 ^ 1073 = half at *
    rcases hlarge with hlarge | hlarge
    · omega
    · omega
  have hdvd : (unitsPerOne : Int) ∣ x.units * y.units := by
    rw [unitsPerOne_eq]
    exact pow_dvd_units_mul hproduct (by decide)
  -- The residual is a multiple of the unit, and no larger than half of it.
  have hmultiple : unitsPerOne ∣ (m - x.units * y.units).natAbs :=
    Int.natCast_dvd.1 (Int.dvd_sub hm hdvd)
  have hunit := unitsPerOne_pos_nat
  have hzero := Nat.eq_zero_of_dvd_of_lt hmultiple (by omega)
  omega

end Residuals

/-! ## Safe numbers -/

/-- Infinite, zero, or of a magnitude between `2^-480` and `2^480`. -/
def Safe (x : Binary64) : Prop :=
  x.isInfinite = true ∨ x.isFinite = true ∧
    (x.toReal = 0 ∨ (2 : ℝ) ^ (-480 : ℤ) ≤ |x.toReal| ∧ |x.toReal| ≤ (2 : ℝ) ^ (480 : ℤ))

section Safe

variable {x : Binary64}

theorem cast_unitsPerOne : (unitsPerOne : ℝ) = (2 : ℝ) ^ (1074 : ℤ) := by
  rw [unitsPerOne_eq, Nat.cast_pow, Nat.cast_ofNat]
  rfl

theorem abs_toReal (x : Binary64) : |x.toReal| = (x.units.natAbs : ℝ) / (unitsPerOne : ℝ) := by
  rw [toReal, abs_div, abs_of_pos unitsPerOne_pos, Nat.cast_natAbs, Int.cast_abs]

/-- A magnitude is at least a power of two when its units are. -/
theorem zpow_le_abs_toReal_iff {e : ℤ} {k : Nat} (h : e + 1074 = k) :
    (2 : ℝ) ^ e ≤ |x.toReal| ↔ 2 ^ k ≤ x.units.natAbs := by
  have hscale : (2 : ℝ) ^ e * (2 : ℝ) ^ (1074 : ℤ) = ((2 ^ k : Nat) : ℝ) := by
    rw [← zpow_add₀ two_ne_zero, h, zpow_natCast, Nat.cast_pow, Nat.cast_ofNat]
  rw [abs_toReal, le_div_iff₀ unitsPerOne_pos, cast_unitsPerOne, hscale, Nat.cast_le]

theorem abs_toReal_le_zpow_iff {e : ℤ} {k : Nat} (h : e + 1074 = k) :
    |x.toReal| ≤ (2 : ℝ) ^ e ↔ x.units.natAbs ≤ 2 ^ k := by
  have hscale : (2 : ℝ) ^ e * (2 : ℝ) ^ (1074 : ℤ) = ((2 ^ k : Nat) : ℝ) := by
    rw [← zpow_add₀ two_ne_zero, h, zpow_natCast, Nat.cast_pow, Nat.cast_ofNat]
  rw [abs_toReal, div_le_iff₀ unitsPerOne_pos, cast_unitsPerOne, hscale, Nat.cast_le]

theorem toReal_eq_zero_iff : x.toReal = 0 ↔ x.units = 0 := by
  rw [toReal, div_eq_zero_iff, Int.cast_eq_zero, or_iff_left unitsPerOne_pos.ne']

/-- The same in units. -/
theorem safe_iff : x.Safe ↔ x.isInfinite = true ∨ x.isFinite = true ∧
    (x.units = 0 ∨ 2 ^ 594 ≤ x.units.natAbs ∧ x.units.natAbs ≤ 2 ^ 1554) := by
  rw [Safe, toReal_eq_zero_iff, zpow_le_abs_toReal_iff (k := 594) (by norm_num),
    abs_toReal_le_zpow_iff (k := 1554) (by norm_num)]

instance (x : Binary64) : Decidable x.Safe :=
  decidable_of_iff _ safe_iff.symm

theorem Safe.neg (h : x.Safe) : (-x).Safe := by
  rw [safe_iff] at h ⊢
  rw [isInfinite_neg, isFinite_neg, units_neg, Int.natAbs_neg, Int.neg_eq_zero]
  exact h

theorem Safe.units_of_finite (h : x.Safe) (hx : x.isFinite = true) :
    x.units = 0 ∨ 2 ^ 594 ≤ x.units.natAbs ∧ x.units.natAbs ≤ 2 ^ 1554 := by
  rcases safe_iff.1 h with hinf | ⟨-, hunits⟩
  · rw [not_infinite_of_finite hx] at hinf
    exact absurd hinf Bool.false_ne_true
  · exact hunits

theorem Safe.natAbs_units_le (h : x.Safe) (hx : x.isFinite = true) :
    x.units.natAbs ≤ 2 ^ 1554 := by
  rcases h.units_of_finite hx with hzero | hunits
  · rw [hzero]
    exact Nat.zero_le _
  · exact hunits.2

/-- A safe number is zero or large enough for the residual of its quotients and
roots. -/
theorem Safe.le_natAbs_units_mul (h : x.Safe) (hx : x.isFinite = true) :
    x.units = 0 ∨ 2 ^ 1179 ≤ (x.units * unitsPerOne).natAbs := by
  rcases h.units_of_finite hx with hzero | ⟨hlarge, -⟩
  · exact .inl hzero
  · right
    rw [Int.natAbs_mul, Int.natAbs_natCast, unitsPerOne_eq]
    refine Nat.le_trans ?_ (Nat.mul_le_mul_right _ hlarge)
    rw [← pow_add]
    exact pow_le_pow_right₀ one_le_two (by decide)

end Safe

end Binary64

open Binary64

/-! ## Roundings of safe operands -/

namespace Rounding

/-- An exact result is never misled. -/
theorem not_misled_of_defect_eq_zero {r : Rounding} (h : r.defect = 0) : ¬ r.Misled := by
  intro hmisled
  apply hmisled.wrong
  rw [h]
  exact Direction.side_refl r.direction 0

/-- A number that is rounded from zero is zero. -/
theorem units_eq_zero_of_rank {x : Binary64} {den : Nat} (h : x.rank = nearestRank 0 den) :
    x.units = 0 := by
  rw [nearestRank, Int.sign_zero, Int.zero_mul] at h
  rw [units_eq_unitsOfRank, h]
  rfl

section Operations

variable {d : Direction} {a b : Binary64}

/-- A finite sum is at most twice as large as the exact one, or a small whole
number of units. -/
theorem natAbs_units_add_le (ha : a.isFinite = true) (hb : b.isFinite = true)
    (hs : (a + b).isFinite = true) :
    (a + b).units.natAbs ≤ 2 ^ 53 ∨ (a + b).units.natAbs ≤ 2 * (a.units + b.units).natAbs := by
  have hrounds := roundsTo_units hs (rank_add ha hb)
  have hle := hrounds.le
  rcases hrounds.normal with h0 | hnormal
  · rw [h0] at hle
    exact .inl (by omega)
  · exact .inr (by omega)

/-- Sums of safe numbers stay far from overflow. -/
theorem not_misled_sum (ha : a.Safe) (hb : b.Safe) : ¬ (sum d a b).Misled := by
  intro hmisled
  obtain ⟨hfa, hfb⟩ := hmisled.defined
  have hs : (a + b).isFinite = true := hmisled.finite
  have hlost : (a + b - a).isInfinite = true := hmisled.blind
  have hseen : (a + b - a).isFinite = true := by
    apply isFinite_of_natAbs_le Nat.one_pos (rank_sub hs hfa)
    have hua := ha.natAbs_units_le hfa
    have hub := hb.natAbs_units_le hfb
    have hsum := natAbs_units_add_le hfa hfb hs
    have hroom : 5 * 2 ^ 1554 ≤ maxUnits := by decide +kernel
    have hpow : 2 ^ 53 ≤ 2 ^ 1554 := pow_le_pow_right₀ one_le_two (by decide)
    generalize 2 ^ 1554 = large at *
    omega
  rw [not_infinite_of_finite hseen] at hlost
  exact absurd hlost Bool.false_ne_true

/-- A misled product is not zero, and it is below `2^-969` in magnitude. -/
theorem natAbs_of_misled_product (h : (product d a b).Misled) :
    a.units * b.units ≠ 0 ∧ (a.units * b.units).natAbs < 2 ^ 1179 := by
  obtain ⟨ha, hb⟩ := h.defined
  have hsmall : 2 * (a.units * b.units - (a * b).units * unitsPerOne).natAbs ≤ unitsPerOne :=
    h.blind.2
  have hinexact : (product d a b).defect ≠ 0 := fun hzero => not_misled_of_defect_eq_zero hzero h
  rw [defect] at hinexact
  constructor
  · intro hzero
    have hrank := rank_mul ha hb
    rw [hzero] at hrank
    apply hinexact
    rw [hzero, units_eq_zero_of_rank hrank, Int.zero_mul, Int.sub_zero]
  · by_contra hlarge
    rw [← Int.natAbs_neg, Int.neg_sub] at hsmall
    apply hinexact
    rw [eq_of_residual_le (Int.dvd_mul_left _ _) (.inr (Nat.le_of_not_lt hlarge)) hsmall,
      Int.sub_self]

/-- The dividend of a misled quotient is not zero, and it is below `2^-969` in
magnitude. -/
theorem natAbs_of_misled_quotient (h : (quotient d a b).Misled) :
    a.units ≠ 0 ∧ (a.units * unitsPerOne).natAbs < 2 ^ 1179 := by
  obtain ⟨ha, hb, h0⟩ := h.defined
  have hdefect : (quotient d a b).defect =
      b.units.sign * (a.units * unitsPerOne - (a / b).units * b.units) := by
    have hsign := Int.sign_mul_self b.units
    show b.units.sign * (a.units * unitsPerOne) - (a / b).units * b.units.natAbs = _
    rw [← hsign]
    ring
  have hinexact : (quotient d a b).defect ≠ 0 := fun hzero => not_misled_of_defect_eq_zero hzero h
  rw [hdefect] at hinexact
  constructor
  · intro hzero
    have hrank := rank_div ha hb h0
    rw [hzero, Int.zero_mul, Int.mul_zero] at hrank
    apply hinexact
    rw [hzero, units_eq_zero_of_rank hrank]
    ring
  · by_contra hlarge
    have hsmall : 2 * (quotient d a b).defect.natAbs ≤ unitsPerOne := h.blind.2
    rw [hdefect, Int.natAbs_mul, Int.natAbs_sign_of_ne_zero h0, Nat.one_mul] at hsmall
    have heq := eq_of_residual_le (Int.dvd_mul_left _ _) (.inl (Nat.le_of_not_lt hlarge)) hsmall
    apply hinexact
    rw [heq, Int.sub_self, Int.mul_zero]

/-- The radicand of a misled root is not zero, and it is below `2^-969`. -/
theorem natAbs_of_misled_root (h : (root d a).Misled) :
    a.units ≠ 0 ∧ (a.units * unitsPerOne).natAbs < 2 ^ 1179 := by
  obtain ⟨ha, hnonneg⟩ := h.defined
  have hinexact : (root d a).defect ≠ 0 := fun hzero => not_misled_of_defect_eq_zero hzero h
  rw [defect] at hinexact
  constructor
  · intro hzero
    have hindex : a.index = 0 := by
      rw [← not_ne_iff, ← units_ne_zero_iff, not_ne_iff]
      exact hzero
    apply hinexact
    rw [sqrt_of_index_eq_zero ha hindex, hzero]
    rfl
  · by_contra hlarge
    have hsmall : 2 * (a.units * unitsPerOne - a.sqrt.units * a.sqrt.units).natAbs ≤
        unitsPerOne := h.blind
    have heq := eq_of_residual_le (Int.dvd_mul_left _ _) (.inl (Nat.le_of_not_lt hlarge)) hsmall
    apply hinexact
    rw [heq, Int.sub_self]

/-- Products of safe numbers have no residual that vanishes. -/
theorem not_misled_product (ha : a.Safe) (hb : b.Safe) : ¬ (product d a b).Misled := by
  intro hmisled
  obtain ⟨hfa, hfb⟩ := hmisled.defined
  obtain ⟨hne, hlt⟩ := natAbs_of_misled_product hmisled
  obtain ⟨hna, hnb⟩ := mul_ne_zero_iff.1 hne
  have hla := ((ha.units_of_finite hfa).resolve_left hna).1
  have hlb := ((hb.units_of_finite hfb).resolve_left hnb).1
  have hlarge : 2 ^ 1179 ≤ (a.units * b.units).natAbs := by
    rw [Int.natAbs_mul]
    refine Nat.le_trans ?_ (Nat.mul_le_mul hla hlb)
    rw [← pow_add]
    exact pow_le_pow_right₀ one_le_two (by decide)
  exact absurd hlt (Nat.not_lt.2 hlarge)

/-- Quotients of safe numbers have no residual that vanishes. -/
theorem not_misled_quotient (ha : a.Safe) : ¬ (quotient d a b).Misled := by
  intro hmisled
  obtain ⟨hne, hlt⟩ := natAbs_of_misled_quotient hmisled
  have hlarge := (ha.le_natAbs_units_mul hmisled.defined.1).resolve_left hne
  exact absurd hlt (Nat.not_lt.2 hlarge)

/-- Roots of safe numbers have no residual that vanishes. -/
theorem not_misled_root (ha : a.Safe) : ¬ (root d a).Misled := by
  intro hmisled
  obtain ⟨hne, hlt⟩ := natAbs_of_misled_root hmisled
  have hlarge := (ha.le_natAbs_units_mul hmisled.defined.1).resolve_left hne
  exact absurd hlt (Nat.not_lt.2 hlarge)

/-! ## Magnitudes of misled roundings -/

/-- The size of what the residual is taken from: the exact sum or product, the dividend
of a quotient, the radicand of a root. -/
noncomputable def magnitude : Rounding → ℝ
  | sum _ a b => |a.toReal + b.toReal|
  | product _ a b => |a.toReal * b.toReal|
  | quotient _ a _ => |a.toReal|
  | root _ a => |a.toReal|

/-- A number is below `2^-969` if its units are, counted in units divided once more by
`2^1074`. -/
theorem abs_toReal_lt_of_natAbs (h : (a.units * unitsPerOne).natAbs < 2 ^ 1179) :
    |a.toReal| < (2 : ℝ) ^ (-969 : ℤ) := by
  rw [← not_le, zpow_le_abs_toReal_iff (k := 105) (by norm_num)]
  intro hlarge
  have hsplit : 2 ^ 1179 = 2 ^ 105 * 2 ^ 1074 := by rw [← pow_add]
  rw [Int.natAbs_mul, Int.natAbs_natCast, unitsPerOne_eq, hsplit] at h
  exact absurd (Nat.lt_of_mul_lt_mul_right h) (Nat.not_lt.2 hlarge)

theorem abs_toReal_mul_lt_of_natAbs (h : (a.units * b.units).natAbs < 2 ^ 1179) :
    |a.toReal * b.toReal| < (2 : ℝ) ^ (-969 : ℤ) := by
  have hunit := unitsPerOne_pos
  have hscale : (2 : ℝ) ^ (-969 : ℤ) * ((unitsPerOne : ℝ) * unitsPerOne) =
      ((2 ^ 1179 : ℕ) : ℝ) := by
    rw [cast_unitsPerOne, ← zpow_add₀ two_ne_zero, ← zpow_add₀ two_ne_zero, Nat.cast_pow,
      Nat.cast_ofNat, ← zpow_natCast]
    congr 1
  rw [abs_mul, abs_toReal, abs_toReal, div_mul_div_comm, div_lt_iff₀ (mul_pos hunit hunit), hscale,
    ← Nat.cast_mul, Nat.cast_lt, ← Int.natAbs_mul]
  exact h

/-- Only a sum can be misled at magnitudes from `2^-969` on. -/
theorem magnitude_of_misled {r : Rounding} (hsum : ∀ d a b, r ≠ sum d a b) (h : r.Misled) :
    0 < r.magnitude ∧ r.magnitude < (2 : ℝ) ^ (-969 : ℤ) := by
  cases r with
  | sum d a b => exact absurd rfl (hsum d a b)
  | product d a b =>
    obtain ⟨hne, hlt⟩ := natAbs_of_misled_product h
    obtain ⟨ha, hb⟩ := mul_ne_zero_iff.1 hne
    refine ⟨abs_pos.2 (mul_ne_zero ?_ ?_), abs_toReal_mul_lt_of_natAbs hlt⟩
    · rwa [Ne, toReal_eq_zero_iff]
    · rwa [Ne, toReal_eq_zero_iff]
  | quotient d a b =>
    obtain ⟨hne, hlt⟩ := natAbs_of_misled_quotient h
    exact ⟨abs_pos.2 (mt toReal_eq_zero_iff.1 hne), abs_toReal_lt_of_natAbs hlt⟩
  | root d a =>
    obtain ⟨hne, hlt⟩ := natAbs_of_misled_root h
    exact ⟨abs_pos.2 (mt toReal_eq_zero_iff.1 hne), abs_toReal_lt_of_natAbs hlt⟩

end Operations

/-! ## Widths -/

/-- A width that is rounded up is not misled: when its first correction overflows, the
rounded width exceeds the exact one. -/
theorem not_misled_width {lb ub : Binary64} (h : lb ≤ ub) : ¬ (sum .up ub (-lb)).Misled := by
  intro hmisled
  obtain ⟨hfu, hfl⟩ := hmisled.defined
  have hs : (ub + -lb).isFinite = true := hmisled.finite
  have hlost : (ub + -lb - ub).isInfinite = true := hmisled.blind
  have hbelow : ¬ ub.units + (-lb).units - (ub + -lb).units ≤ 0 := hmisled.wrong
  have hnonneg : 0 ≤ (ub + -lb).units := by
    by_contra hneg
    have hrank : (ub + -lb).rank < 0 := by
      have := units_pos_iff (x := -(ub + -lb))
      rw [units_neg, rank_neg] at this
      omega
    rw [rank_add hfu hfl, nearestRank_neg_iff _ Nat.one_pos, units_neg] at hrank
    have := units_le_units_iff.2 h.2.2
    omega
  have hseen : (ub + -lb - ub).isFinite = true := by
    apply isFinite_of_natAbs_le Nat.one_pos (rank_sub hs hfu)
    have hu := natAbs_units_le_maxUnits hfu
    have hl := natAbs_units_le_maxUnits hfl
    omega
  rw [not_infinite_of_finite hseen] at hlost
  exact absurd hlost Bool.false_ne_true

end Rounding

end Paving
