import Paving.Proofs.Binary64.TwoSum

/-!
# Halfway points

A ratio beyond the halfway point between two neighbouring numbers is rounded past the
first of them. In ranks this is one statement for both signs
(`lt_nearestRank_of_halfway_lt` and its reflection `nearestRank_lt_of_lt_halfway`), and
it says more than that a ratio lies between the neighbours of its rounded value: two
numbers with a third one between them have a rounded midpoint strictly between them.

Halving is the other half of a midpoint. A ratio is rounded as its double over twice the
denominator (`nearestRank_mul_left`), and from `2^53` units on half of a rounded whole
number is the rounded half (`unitsOfRank_nearestRank_one`), so rounding a sum and then
its half rounds the half of the exact sum once (`nearestRank_half_of_rounded`).
-/

set_option autoImplicit false

namespace Paving

namespace Binary64

/-! ## Past the halfway point -/

section Halfway

variable {num den i : Nat}

/-- A ratio above a halfway point is rounded past the magnitude below it. -/
theorem lt_nearestIndex_of_halfway_lt (hden : 0 < den) (hi : i < infinityIndex)
    (h : (magnitudeUnits i + magnitudeUnits (i + 1)) * den < 2 * num) :
    i < nearestIndex num den := by
  rw [nearestIndex_eq]
  refine Nat.lt_min.2 ⟨hi, ?_⟩
  -- Otherwise the ratio is at most half a step above a magnitude that is not above the first one.
  by_contra hle
  rw [Nat.not_lt] at hle
  have hbound := (nearest_bounds num hden).2
  have hstep := Nat.mul_le_mul_right den (nearest_add_step_le num den)
  have hlow := Nat.mul_le_mul_right den (magnitudeUnits_strictMono.monotone hle)
  have hhigh := Nat.mul_le_mul_right den
    (magnitudeUnits_strictMono.monotone (Nat.succ_le_succ hle))
  rw [magnitudeUnits_nearest] at hlow
  rw [Nat.add_mul, Nat.mul_comm (2 ^ _) den] at hstep
  rw [Nat.add_mul] at h
  simp only [Nat.succ_eq_add_one] at hhigh
  omega

/-- A ratio below a halfway point is not rounded past the magnitude below it. -/
theorem nearestIndex_le_of_lt_halfway (hden : 0 < den)
    (h : 2 * num < (magnitudeUnits i + magnitudeUnits (i + 1)) * den) :
    nearestIndex num den ≤ i := by
  rw [nearestIndex_eq]
  refine Nat.le_trans (Nat.min_le_right _ _) ?_
  by_contra hlt
  rw [Nat.not_le] at hlt
  rw [Nat.add_mul] at h
  -- Rounded down, the ratio is not below the magnitude above the halfway point.
  by_cases hdown : significand num den * 2 ^ stepExponent num den * den ≤ num
  · have hhigh := Nat.mul_le_mul_right den
      (magnitudeUnits_strictMono.monotone (Nat.succ_le_of_lt hlt))
    have hlow := Nat.mul_le_mul_right den
      (magnitudeUnits_strictMono.monotone (Nat.le_of_lt hlt))
    rw [magnitudeUnits_nearest] at hhigh hlow
    simp only [Nat.succ_eq_add_one] at hhigh
    omega
  -- Rounded up, it is not below the last halfway point before its magnitude.
  · obtain ⟨k, hk, hhalf⟩ := halfway_le_of_lt_nearest hden (Nat.lt_of_not_le hdown)
    rw [hk] at hlt
    have hlow := Nat.mul_le_mul_right den
      (magnitudeUnits_strictMono.monotone (Nat.le_of_lt_succ hlt))
    have hhigh := Nat.mul_le_mul_right den
      (magnitudeUnits_strictMono.monotone (Nat.succ_le_of_lt hlt))
    rw [Nat.add_mul] at hhalf
    simp only [Nat.succ_eq_add_one] at hhigh
    omega

end Halfway

section Signed

variable {num r : Int} {den : Nat}

/-- A ratio above the halfway point between two neighbours is rounded past the lower
one. -/
theorem lt_nearestRank_of_halfway_lt (hden : 0 < den) (hr : r < (infinityIndex : Int))
    (h : (unitsOfRank r + unitsOfRank (r + 1)) * (den : Int) < 2 * num) :
    r < nearestRank num den := by
  by_cases hsign : 0 ≤ r
  · obtain ⟨i, rfl⟩ := Int.eq_ofNat_of_zero_le hsign
    rw [← Int.natCast_succ, unitsOfRank_natCast, unitsOfRank_natCast] at h
    have hnum : 0 ≤ num := by
      have : (0 : Int) ≤ (magnitudeUnits i + magnitudeUnits i.succ) * den := by positivity
      omega
    obtain ⟨n, rfl⟩ := Int.eq_ofNat_of_zero_le hnum
    have hrank := nearestRank_signed false n hden
    simp only [Bool.false_eq_true, if_false] at hrank
    rw [hrank]
    have hlt : i < nearestIndex n den :=
      lt_nearestIndex_of_halfway_lt hden (by omega) (by exact_mod_cast h)
    omega
  · -- Below zero the neighbours change places: a magnitude is not rounded past the larger one.
    obtain ⟨i, hi⟩ : ∃ i : Nat, r = -((i + 1 : Nat) : Int) := ⟨(-r - 1).toNat, by omega⟩
    by_cases hnum : 0 ≤ num
    · obtain ⟨n, rfl⟩ := Int.eq_ofNat_of_zero_le hnum
      have hrank := nearestRank_signed false n hden
      simp only [Bool.false_eq_true, if_false] at hrank
      omega
    · obtain ⟨n, rfl⟩ : ∃ n : Nat, num = -(n : Int) := ⟨num.natAbs, by omega⟩
      have hrank := nearestRank_signed true n hden
      simp only [if_true] at hrank
      have hsucc : r + 1 = -(i : Int) := by omega
      rw [hsucc, hi, unitsOfRank_neg, unitsOfRank_neg, unitsOfRank_natCast, unitsOfRank_natCast,
        ← Int.neg_add, Int.neg_mul] at h
      have hbelow : (2 * n : Int) < (magnitudeUnits i + magnitudeUnits (i + 1)) * den := by
        rw [Int.add_comm (magnitudeUnits i : Int)]
        omega
      have hle : nearestIndex n den ≤ i :=
        nearestIndex_le_of_lt_halfway hden (by exact_mod_cast hbelow)
      omega

/-- A ratio below the halfway point between two neighbours is rounded past the upper
one. -/
theorem nearestRank_lt_of_lt_halfway (hden : 0 < den) (hr : -(infinityIndex : Int) < r)
    (h : 2 * num < (unitsOfRank (r - 1) + unitsOfRank r) * (den : Int)) :
    nearestRank num den < r := by
  have hreflected : (unitsOfRank (-r) + unitsOfRank (-r + 1)) * (den : Int) < 2 * -num := by
    have hsucc : -r + 1 = -(r - 1) := by omega
    rw [hsucc, unitsOfRank_neg, unitsOfRank_neg, ← Int.neg_add, Int.neg_mul,
      Int.add_comm (unitsOfRank r)]
    omega
  have hlt := lt_nearestRank_of_halfway_lt hden (by omega) hreflected
  rw [nearestRank_neg] at hlt
  omega

end Signed

/-! ## Halves -/

theorem nearestIndex_mul_left {k : Nat} (hk : 0 < k) (num den : Nat) :
    nearestIndex (k * num) (k * den) = nearestIndex num den := by
  have hround : ∀ d, roundHalfEven (k * num) (k * d) = roundHalfEven num d := by
    intro d
    simp only [roundHalfEven, Nat.mul_div_mul_left _ _ hk, Nat.mul_mod_mul_left,
      Nat.mul_left_comm 2 k, Nat.mul_lt_mul_left hk]
  simp only [nearestIndex, Nat.mul_div_mul_left _ _ hk, Nat.shiftLeft_eq, Nat.mul_assoc, hround]

/-- A ratio is rounded as any multiple of it over the same multiple. -/
theorem nearestRank_mul_left {k : Nat} (hk : 0 < k) (num : Int) (den : Nat) :
    nearestRank (k * num) (k * den) = nearestRank num den := by
  have hpos : (0 : Int) < k := by omega
  rw [nearestRank, nearestRank, Int.natAbs_mul, Int.natAbs_natCast, nearestIndex_mul_left hk,
    Int.sign_mul, Int.sign_eq_one_of_pos hpos, Int.one_mul]

section Large

variable {n : Nat} (hn : 2 ^ 53 ≤ n)

include hn

/-- The step halves with a large number. -/
theorem stepExponent_two : stepExponent n 1 = stepExponent n 2 + 1 := by
  have hlog : (n / 2).log2 = n.log2 - 1 := by
    rw [Nat.log2_def n, if_pos (by omega), Nat.add_sub_cancel]
  have hle : 53 ≤ n.log2 := (Nat.le_log2 (by omega)).2 hn
  rw [stepExponent, stepExponent, Nat.div_one, hlog]
  omega

theorem significand_two : significand n 1 = significand n 2 := by
  rw [significand, significand, stepExponent_two hn, Nat.shiftLeft_eq, Nat.shiftLeft_eq,
    Nat.pow_succ, Nat.one_mul, Nat.mul_comm]

/-- Half of a large number is rounded to the magnitude one binade below. -/
theorem nearestIndex_one_eq (hfinite : nearestIndex n 1 < infinityIndex) :
    nearestIndex n 1 = nearestIndex n 2 + binade := by
  have hone := nearestIndex_eq n 1
  have htwo := nearestIndex_eq n 2
  rw [stepExponent_two hn, significand_two hn, Nat.succ_mul] at hone
  omega

theorem magnitudeUnits_nearestIndex_one (hfinite : nearestIndex n 1 < infinityIndex) :
    magnitudeUnits (nearestIndex n 1) = 2 * magnitudeUnits (nearestIndex n 2) := by
  have hindex := nearestIndex_one_eq hn hfinite
  have hone : nearestIndex n 1 = stepExponent n 1 * binade + significand n 1 := by
    rw [nearestIndex_eq] at hfinite ⊢
    omega
  have htwo : nearestIndex n 2 = stepExponent n 2 * binade + significand n 2 := by
    have hbinade : 0 < binade := by decide
    have hcut := nearestIndex_eq n 2
    omega
  rw [hone, htwo, magnitudeUnits_nearest, magnitudeUnits_nearest, stepExponent_two hn,
    significand_two hn, Nat.pow_succ]
  ring

end Large

section Half

variable {n : Int}

/-- From `2^53` units on, a rounded whole number is twice its rounded half. -/
theorem unitsOfRank_nearestRank_one (hn : 2 ^ 53 ≤ n.natAbs)
    (hfinite : (nearestRank n 1).natAbs < infinityIndex) :
    unitsOfRank (nearestRank n 1) = 2 * unitsOfRank (nearestRank n 2) := by
  rw [natAbs_nearestRank n Nat.one_pos] at hfinite
  have hmagnitude : (magnitudeUnits (nearestIndex n.natAbs 1) : Int) =
      2 * magnitudeUnits (nearestIndex n.natAbs 2) := by
    exact_mod_cast magnitudeUnits_nearestIndex_one hn hfinite
  rcases Int.natAbs_eq n with hpos | hneg
  · have hone := nearestRank_signed false n.natAbs Nat.one_pos
    have htwo := nearestRank_signed false n.natAbs Nat.two_pos
    simp only [Bool.false_eq_true, if_false, ← hpos] at hone htwo
    rw [hone, htwo, unitsOfRank_natCast, unitsOfRank_natCast, hmagnitude]
  · have hone := nearestRank_signed true n.natAbs Nat.one_pos
    have htwo := nearestRank_signed true n.natAbs Nat.two_pos
    simp only [if_true, ← hneg] at hone htwo
    rw [hone, htwo, unitsOfRank_neg, unitsOfRank_neg, unitsOfRank_natCast, unitsOfRank_natCast,
      hmagnitude]
    ring

/-- Up to `2^53` units every whole number is a number. -/
theorem unitsOfRank_of_natAbs_le (hn : n.natAbs ≤ 2 ^ 53) : unitsOfRank n = n := by
  have hsmall : magnitudeUnits n.natAbs = n.natAbs := by
    have hsteps := magnitudeUnits_steps (k := 0) (m := n.natAbs) (by rw [binade_eq]; omega)
      (.inl rfl)
    rwa [Nat.zero_mul, Nat.zero_add, Nat.pow_zero, Nat.mul_one] at hsteps
  rw [unitsOfRank, hsmall]
  omega

theorem nearestRank_one_of_natAbs_le (hn : n.natAbs ≤ 2 ^ 53) : nearestRank n 1 = n := by
  have hfinite : n.natAbs < infinityIndex := by
    have hinf : (2 ^ 53 : Nat) < infinityIndex := by decide
    omega
  have hself := nearestRank_unitsOfRank Nat.one_pos hfinite
  rwa [Nat.cast_one, Int.mul_one, unitsOfRank_of_natAbs_le hn] at hself

/-- Half of a rounded whole number is rounded as half of the number itself. -/
theorem nearestRank_half_of_rounded (hfinite : (nearestRank n 1).natAbs < infinityIndex) :
    nearestRank (unitsOfRank (nearestRank n 1)) 2 = nearestRank n 2 := by
  by_cases hn : n.natAbs ≤ 2 ^ 53
  · rw [nearestRank_one_of_natAbs_le hn, unitsOfRank_of_natAbs_le hn]
  · have hlarge : 2 ^ 53 ≤ n.natAbs := by omega
    have hhalf : (nearestRank n 2).natAbs < infinityIndex := by
      rw [natAbs_nearestRank n Nat.one_pos] at hfinite
      have hindex := nearestIndex_one_eq hlarge hfinite
      rw [natAbs_nearestRank n Nat.two_pos]
      omega
    rw [unitsOfRank_nearestRank_one hlarge hfinite, Int.mul_comm]
    exact nearestRank_unitsOfRank Nat.two_pos hhalf

/-- A product with one half is the rounded half. -/
theorem rank_half_mul {x : Binary64} (hx : x.isFinite = true) :
    (half * x).rank = nearestRank x.units 2 := by
  have hunits : half.units = ((2 ^ 1073 : Nat) : Int) := by decide +kernel
  have hone : unitsPerOne = 2 ^ 1073 * 2 := by decide +kernel
  rw [rank_mul (by decide) hx, hunits, hone, nearestRank_mul_left (Nat.two_pow_pos 1073)]

/-- Half of a large number is exact. -/
theorem units_half_mul {x : Binary64} (hx : x.isFinite = true) (hlarge : 2 ^ 53 ≤ x.units.natAbs) :
    (half * x).isFinite = true ∧ 2 * (half * x).units = x.units := by
  have hself := nearestRank_units hx
  constructor
  · apply isFinite_of_natAbs_le Nat.two_pos (rank_half_mul hx)
    have hmax := natAbs_units_le_maxUnits hx
    omega
  · have hdouble := unitsOfRank_nearestRank_one hlarge (by
      rw [hself]
      exact isFinite_iff_rank.1 hx)
    rw [hself, ← units_eq_unitsOfRank, ← rank_half_mul hx, ← units_eq_unitsOfRank] at hdouble
    exact hdouble.symm

end Half

end Binary64

end Paving
