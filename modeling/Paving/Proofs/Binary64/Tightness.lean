import Paving.Proofs.Binary64.Endpoints

/-!
# The closest bounds

A directed operation should not only bound its exact result but be the closest number
that does. The second half holds of every sum, whether it is a bound or not: whatever
number bounds the exact sum on the safe side, the directed sum does not go beyond it
(`side_add`). Nothing is asked of the correction here. A rounded result never passes a bound on the safe side (`side_nearestRank`), a step
is taken only from the wrong side (`side_step_of_wrong`), and an overflow is cut back to
the largest finite number on the side where no real lies beyond it
(`side_saturate`).
-/

set_option autoImplicit false

namespace Paving

namespace Direction

open Binary64

section Ratio

variable {d : Direction} {v x : Binary64} {num : Int} {den : Nat} {t : ℝ}

/-- The infinity in the direction is passed by nothing. -/
theorem side_of_limit (hv : v.rank = d.limit.rank) {r : Int} (hlow : -(infinityIndex : Int) ≤ r)
    (hhigh : r ≤ infinityIndex) : d.Side v.rank r := by
  rw [hv]
  cases d with
  | down =>
    show negInf.rank ≤ r
    rw [rank_negInf]
    exact hlow
  | up =>
    show r ≤ posInf.rank
    rw [rank_posInf]
    exact hhigh

/-- A rounded ratio does not pass a number that bounds the ratio. -/
theorem side_nearestRank (hden : 0 < den) (hv : d.Bounds v (ratio num den)) :
    d.Side v.rank (nearestRank num den) := by
  have hpos : (0 : Int) < den := by omega
  have hbound := nearestIndex_le num.natAbs den
  rw [← natAbs_nearestRank num hden] at hbound
  rcases hv.finite_or_limit with hfinite | ⟨-, hlimit⟩
  · have hside := (bounds_ratio_iff hden hfinite).1 hv
    have hrank := isFinite_iff_rank.1 hfinite
    -- The neighbour of the rounded ratio on the other side has passed the ratio already.
    cases d with
    | down =>
      show v.rank ≤ nearestRank num den
      by_contra hlt
      have habove := lt_unitsOfRank_succ num hden (by omega)
      have hbelow : v.units * den ≤ num := Int.sub_nonneg.1 hside
      have hless := Int.lt_of_mul_lt_mul_right (Int.lt_of_le_of_lt hbelow habove) hpos.le
      rw [units_eq_unitsOfRank, unitsOfRank_strictMono.lt_iff_lt] at hless
      omega
    | up =>
      show nearestRank num den ≤ v.rank
      by_contra hlt
      have hbelow := unitsOfRank_pred_lt num hden (by omega)
      have habove : num ≤ v.units * den := sub_nonpos.1 hside
      have hless := Int.lt_of_mul_lt_mul_right (Int.lt_of_lt_of_le hbelow habove) hpos.le
      rw [units_eq_unitsOfRank, unitsOfRank_strictMono.lt_iff_lt] at hless
      omega
  · exact side_of_limit hlimit (by omega) (by omega)

/-- A number on the wrong side has a neighbour that does not pass a bound of the real. -/
theorem side_step_of_wrong (hv : d.Bounds v t) (hx : x.isFinite = true)
    (hwrong : ¬ d.Bounds x t) : d.Side v.rank (d.step x).rank := by
  have hnan := not_nan_of_finite hx
  have hrank := isFinite_iff_rank.1 hx
  have hlimits := And.intro rank_negInf rank_posInf
  rw [bounds_iff_side hx] at hwrong
  rcases hv.finite_or_limit with hfinite | ⟨-, hlimit⟩
  · -- The real lies strictly between the two numbers, so their ranks differ.
    rw [bounds_iff_side hfinite] at hv
    cases d with
    | down =>
      obtain ⟨-, hstep⟩ := rank_nextDown hnan (by omega)
      have hbeyond := mt toReal_le_toReal_iff.2 (not_le.2 (lt_of_le_of_lt hv (not_le.1 hwrong)))
      show v.rank ≤ x.nextDown.rank
      omega
    | up =>
      obtain ⟨-, hstep⟩ := rank_nextUp hnan (by omega)
      have hbeyond := mt toReal_le_toReal_iff.2 (not_le.2 (lt_of_lt_of_le (not_le.1 hwrong) hv))
      show x.nextUp.rank ≤ v.rank
      omega
  · have hstep : (d.step x).isNaN = false := by
      cases d with
      | down => exact (rank_nextDown hnan (by omega)).1
      | up => exact (rank_nextUp hnan (by omega)).1
    obtain ⟨hlow, hhigh⟩ := rank_bounds hstep
    rw [rank_negInf] at hlow
    rw [rank_posInf] at hhigh
    exact side_of_limit hlimit hlow hhigh

/-- A bound of a real is not the infinity on the other side. -/
theorem rank_ne_opposite_limit (hv : d.Bounds v t) : v.rank ≠ d.opposite.limit.rank := by
  have hlimits := And.intro rank_negInf rank_posInf
  have hinf : (0 : Int) < infinityIndex := by decide
  intro heq
  rcases hv.finite_or_limit with hfinite | ⟨-, hlimit⟩
  · have hrank := isFinite_iff_rank.1 hfinite
    cases d with
    | down =>
      have hpos : v.rank = posInf.rank := heq
      omega
    | up =>
      have hneg : v.rank = negInf.rank := heq
      omega
  · rw [hlimit] at heq
    cases d with
    | down =>
      have hboth : negInf.rank = posInf.rank := heq
      omega
    | up =>
      have hboth : posInf.rank = negInf.rank := heq
      omega

/-- Cutting an overflow back to the largest finite number does not pass a bound of a
real. -/
theorem side_saturate (hv : d.Bounds v t) (hside : d.Side v.rank x.rank) :
    d.Side v.rank (d.saturate x).rank := by
  have hlimits := And.intro rank_negInf rank_posInf
  have hmax : maxFinite.rank = (infinityIndex : Int) - 1 := by decide
  have hother := rank_ne_opposite_limit hv
  have hrange := rank_bounds hv.not_nan
  cases d with
  | down =>
    have hne : v.rank ≠ posInf.rank := hother
    show v.rank ≤ (if x == posInf then maxFinite else x).rank
    split
    · omega
    · exact hside
  | up =>
    have hne : v.rank ≠ negInf.rank := hother
    show (if x == negInf then -maxFinite else x).rank ≤ v.rank
    split
    · rw [rank_neg]
      omega
    · exact hside

end Ratio

/-- A directed sum of finite numbers is the closest bound: it does not pass any number
that bounds the exact sum. -/
theorem side_add {d : Direction} {a b v : Binary64} (ha : a.isFinite = true)
    (hb : b.isFinite = true) (hv : d.Bounds v (a.toReal + b.toReal)) :
    d.Side v.rank (d.add a b).rank := by
  have hr := rank_add ha hb
  rw [toReal_add_eq_ratio] at hv
  have hnearest : d.Side v.rank (a + b).rank := by
    rw [hr]
    exact side_nearestRank Nat.one_pos hv
  rw [Direction.add]
  split
  · rw [ha, hb, Bool.and_true, if_pos rfl]
    exact side_saturate hv hnearest
  · rename_i hinfinite
    rw [correct]
    split
    · rename_i hwrong
      have hfinite := (finite_or_infinite (not_nan_of_nearest Nat.one_pos hr)).resolve_right
        hinfinite
      -- An error that shows a wrong side is a number, so it is the defect.
      have hseen : (a + b - a).isFinite = true := by
        have hnan := not_nan_of_nearest Nat.one_pos (rank_sub hfinite ha)
        refine (finite_or_infinite hnan).resolve_right fun hlost => ?_
        rw [wrongSide_nan (isNaN_twoSumError ha hb hfinite hlost)] at hwrong
        cases hwrong
      refine side_step_of_wrong hv hfinite ?_
      rw [bounds_ratio_iff Nat.one_pos hfinite, Nat.cast_one, Int.mul_one]
      exact ((wrongSide_iff Nat.one_pos (rank_twoSumError ha hb hfinite hseen)).1 hwrong).1
    · exact hnearest

end Direction

end Paving
