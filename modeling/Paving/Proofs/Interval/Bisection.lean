import Paving.Proofs.Binary64.Halfway
import Paving.Interval.Inclusion

/-!
# Midpoints and where bisection fails

The midpoint of two finite bounds is computed by adding and halving, each with a rounding
of its own, or by halving and adding when the sum overflows. Either way the result is the
number nearest to the exact midpoint (`rank_midpoint`): halving loses nothing where
rounding the sum did, and rounds only sums that were exact.

A nearest number lies between the bounds, and strictly between them as soon as any number
does (`rank_midpoint_strict`). So a bounded interval of positive width can be bisected
unless its bounds are adjacent, and then the midpoint is one of them
(`bisectAt_midpoint_eq_error`).
-/

set_option autoImplicit false

namespace Paving

namespace Interval

open Binary64

/-! ## The midpoint of finite bounds -/

section Midpoint

variable {lb ub : Binary64}

theorem isFinite_half_mul_of_infinite {s : Binary64} (hs : s.isInfinite = true) :
    (half * s).isFinite = false := by
  have hindex := isInfinite_iff.1 hs
  have hhalf : half.isNaN = false := by decide
  have hzero : ¬ (half.index = 0 || s.index = 0) = true := by
    rw [hindex]
    decide
  show (mul half s).isFinite = false
  rw [mul]
  simp only [hhalf, not_nan_of_infinite hs, hs, hzero, Bool.or_false, Bool.or_true, if_true,
    Bool.false_eq_true, if_false]
  rw [isFinite, index_ofIndex _ infinityIndex_lt_signWeight]
  decide

/-- A sum overflows only if both summands are large. -/
theorem large_of_infinite_add (hlb : lb.isFinite = true) (hub : ub.isFinite = true)
    (hs : (lb + ub).isInfinite = true) : 2 ^ 53 ≤ lb.units.natAbs ∧ 2 ^ 53 ≤ ub.units.natAbs := by
  have hindex : nearestIndex (lb.units + ub.units).natAbs 1 = infinityIndex := by
    rw [← natAbs_nearestRank _ Nat.one_pos, ← rank_add hlb hub]
    exact isInfinite_iff_rank.1 hs
  -- Otherwise the sum stays below the last halfway point and is rounded to a finite number.
  have hhalfway :
      (magnitudeUnits (infinityIndex - 1) + magnitudeUnits (infinityIndex - 1 + 1)) * 1 ≤
        2 * (lb.units + ub.units).natAbs := by
    by_contra hlt
    have hle := nearestIndex_le_of_lt_halfway Nat.one_pos (Nat.lt_of_not_le hlt)
    rw [hindex] at hle
    exact absurd hle (by decide)
  have hlast : maxUnits + maxUnits + 2 ^ 54 ≤
      (magnitudeUnits (infinityIndex - 1) + magnitudeUnits (infinityIndex - 1 + 1)) * 1 := by
    decide +kernel
  have hl := natAbs_units_le_maxUnits hlb
  have hu := natAbs_units_le_maxUnits hub
  omega

/-- The midpoint of finite bounds is the number nearest to the exact midpoint. -/
theorem rank_midpoint (hlb : lb.isFinite = true) (hub : ub.isFinite = true) :
    (midpoint lb ub).rank = nearestRank (lb.units + ub.units) 2 := by
  have hr := rank_add hlb hub
  rw [midpoint]
  rcases finite_or_infinite (not_nan_of_nearest Nat.one_pos hr) with hs | hs
  · have hhalf := rank_half_mul hs
    have hfinite : (half * (lb + ub)).isFinite = true := by
      apply isFinite_of_natAbs_le Nat.two_pos hhalf
      have hmax := natAbs_units_le_maxUnits hs
      omega
    rw [if_pos hfinite, hhalf, units_eq_unitsOfRank, hr]
    apply nearestRank_half_of_rounded
    rw [← hr]
    exact isFinite_iff_rank.1 hs
  · -- The sum overflows: the halves are exact, and their sum is rounded once.
    obtain ⟨hl, hu⟩ := large_of_infinite_add hlb hub hs
    obtain ⟨hfl, hhl⟩ := units_half_mul hlb hl
    obtain ⟨hfu, hhu⟩ := units_half_mul hub hu
    have hdouble : lb.units + ub.units = (2 : Nat) * ((half * lb).units + (half * ub).units) := by
      omega
    have hscaled := nearestRank_mul_left Nat.two_pos ((half * lb).units + (half * ub).units) 1
    rw [Nat.mul_one] at hscaled
    rw [isFinite_half_mul_of_infinite hs, if_neg Bool.false_ne_true, rank_add hfl hfu, hdouble,
      hscaled]

theorem isFinite_midpoint (hlb : lb.isFinite = true) (hub : ub.isFinite = true) :
    (midpoint lb ub).isFinite = true := by
  apply isFinite_of_natAbs_le Nat.two_pos (rank_midpoint hlb hub)
  have hl := natAbs_units_le_maxUnits hlb
  have hu := natAbs_units_le_maxUnits hub
  omega

/-- The midpoint lies between the bounds. -/
theorem rank_midpoint_between (hlb : lb.isFinite = true) (hub : ub.isFinite = true)
    (hlt : lb.rank < ub.rank) :
    lb.rank ≤ (midpoint lb ub).rank ∧ (midpoint lb ub).rank ≤ ub.rank := by
  have hl := isFinite_iff_rank.1 hlb
  have hu := isFinite_iff_rank.1 hub
  have hunits := units_lt_units_iff.2 hlt
  rw [rank_midpoint hlb hub]
  constructor
  · have hbelow : unitsOfRank (lb.rank - 1) < lb.units := by
      rw [units_eq_unitsOfRank]
      exact unitsOfRank_strictMono (by omega)
    have hpast : lb.rank - 1 < nearestRank (lb.units + ub.units) 2 := by
      apply lt_nearestRank_of_halfway_lt Nat.two_pos (by omega)
      rw [Int.sub_add_cancel, ← units_eq_unitsOfRank]
      omega
    omega
  · have habove : ub.units < unitsOfRank (ub.rank + 1) := by
      rw [units_eq_unitsOfRank]
      exact unitsOfRank_strictMono (by omega)
    have hpast : nearestRank (lb.units + ub.units) 2 < ub.rank + 1 := by
      apply nearestRank_lt_of_lt_halfway Nat.two_pos (by omega)
      rw [Int.add_sub_cancel, ← units_eq_unitsOfRank]
      omega
    omega

/-- Bounds with a number strictly between them have their midpoint strictly between
them. -/
theorem rank_midpoint_strict (hlb : lb.isFinite = true) (hub : ub.isFinite = true)
    (hlt : lb.rank + 1 < ub.rank) :
    lb.rank < (midpoint lb ub).rank ∧ (midpoint lb ub).rank < ub.rank := by
  have hl := isFinite_iff_rank.1 hlb
  have hu := isFinite_iff_rank.1 hub
  rw [rank_midpoint hlb hub]
  -- The other bound is farther away than the neighbour, so the midpoint is past halfway to it.
  constructor
  · apply lt_nearestRank_of_halfway_lt Nat.two_pos (by omega)
    have hnext : unitsOfRank (lb.rank + 1) < ub.units := by
      rw [units_eq_unitsOfRank]
      exact unitsOfRank_strictMono hlt
    rw [← units_eq_unitsOfRank]
    omega
  · apply nearestRank_lt_of_lt_halfway Nat.two_pos (by omega)
    have hprevious : lb.units < unitsOfRank (ub.rank - 1) := by
      rw [units_eq_unitsOfRank]
      exact unitsOfRank_strictMono (by omega)
    rw [← units_eq_unitsOfRank]
    omega

end Midpoint

/-! ## Bisection of a bounded interval -/

section Bounded

variable {x : Interval}

/-- A bounded interval has the midpoint of its bounds. -/
theorem mid_of_isBounded (h : x.isBounded = true) : x.mid = .ok (midpoint x.lb x.ub) := by
  simp only [isBounded, Bool.and_eq_true, Bool.not_eq_true'] at h
  obtain ⟨⟨hne, hlb⟩, hub⟩ := h
  have hinf := And.intro rank_negInf rank_posInf
  have hlow : (x.lb == negInf) = false := by
    have := isFinite_iff_rank.1 hlb
    exact beq_eq_false_of_rank_ne (by omega)
  have hhigh : (x.ub == posInf) = false := by
    have := isFinite_iff_rank.1 hub
    exact beq_eq_false_of_rank_ne (by omega)
  rw [mid, hne, if_neg Bool.false_ne_true, hlow, hhigh]

/-- A bounded interval of positive width that is not bisected at its midpoint has
adjacent bounds, and the midpoint is one of them. -/
theorem bisectAt_midpoint_eq_error (h : x.isBounded = true) (hlt : x.lb < x.ub)
    {e : IntervalError} (he : x.bisectAt (midpoint x.lb x.ub) = .error e) :
    e = .bisectionPoint (midpoint x.lb x.ub) x.lb x.ub ∧ Adjacent x.lb x.ub ∧
      ((midpoint x.lb x.ub == x.lb) = true ∨ (midpoint x.lb x.ub == x.ub) = true) := by
  simp only [isBounded, Bool.and_eq_true, Bool.not_eq_true'] at h
  obtain ⟨⟨hne, hlb⟩, hub⟩ := h
  obtain ⟨hnl, hnu, hrank⟩ := hlt
  have hnm := not_nan_of_finite (isFinite_midpoint hlb hub)
  obtain ⟨hlow, hhigh⟩ := rank_midpoint_between hlb hub hrank
  have hwide : (x.lb == x.ub) = false := beq_eq_false_of_rank_ne hrank.ne
  rw [bisectAt, hne, if_neg Bool.false_ne_true, hwide, if_neg Bool.false_ne_true] at he
  split at he
  case isTrue => cases he
  case isFalse hout =>
    cases he
    have hend : (midpoint x.lb x.ub).rank = x.lb.rank ∨ (midpoint x.lb x.ub).rank = x.ub.rank := by
      by_contra hinside
      exact hout ⟨⟨hnl, hnm, by omega⟩, ⟨hnm, hnu, by omega⟩⟩
    refine ⟨rfl, adjacent_of_rank_eq_succ hnl hnu ?_, ?_⟩
    · -- With a number between the bounds the midpoint would be strictly inside.
      by_contra hgap
      have hstrict := rank_midpoint_strict hlb hub (by omega)
      omega
    · rw [Binary64.beq_iff, Binary64.beq_iff]
      rcases hend with hend | hend
      · exact .inl ⟨hnm, hnl, hend⟩
      · exact .inr ⟨hnm, hnu, hend⟩

end Bounded

end Interval

end Paving
