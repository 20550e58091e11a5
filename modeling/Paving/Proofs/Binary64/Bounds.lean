import Paving.Proofs.Binary64.Rounded

/-!
# Bounds for ratios

A rounded ratio, or its neighbour, bounds the ratio on the side that a direction
asks for. The difference `num - x.units * den` is the *defect* of a rounded ratio:
its sign says on which side the number lies (`bounds_ratio_iff`). A step to the
neighbour always suffices (`bounds_step_ratio`), so does the largest finite number
after an overflow (`bounds_saturate`), and a correction by an error term does unless
the error term misses the defect (`bounds_correct_iff`, `bounds_settled_iff`).
-/

set_option autoImplicit false

namespace Paving

/-! ## Sides -/

namespace Direction

open Binary64

/-- The first number lies on the safe side of the second. -/
def Side {α : Type} [LE α] : Direction → α → α → Prop
  | down, s, t => s ≤ t
  | up, s, t => t ≤ s

instance (d : Direction) (m n : Int) : Decidable (d.Side m n) :=
  match d with
  | down => inferInstanceAs (Decidable (m ≤ n))
  | up => inferInstanceAs (Decidable (n ≤ m))

theorem side_refl (d : Direction) (n : Int) : d.Side n n := by
  cases d with
  | down => exact Int.le_refl n
  | up => exact Int.le_refl n

/-- A NaN shows no error. -/
theorem wrongSide_nan {d : Direction} {error : Binary64} (h : error.isNaN = true) :
    d.wrongSide error = false := by
  cases d with
  | down => simp [wrongSide, Binary64.lt_iff, h]
  | up => simp [wrongSide, Binary64.lt_iff, h]

theorem bounds_iff_side {d : Direction} {x : Binary64} {t : ℝ} (hx : x.isFinite = true) :
    d.Bounds x t ↔ d.Side x.toReal t := by
  have hnan := not_nan_of_finite hx
  cases d with
  | down =>
    simp only [Bounds, Side, hnan, true_and, value_of_finite hx, EReal.coe_le_coe_iff]
  | up =>
    simp only [Bounds, Side, hnan, true_and, value_of_finite hx, EReal.coe_le_coe_iff]

/-- A finite number bounds itself. -/
theorem bounds_toReal {d : Direction} {x : Binary64} (hx : x.isFinite = true) :
    d.Bounds x x.toReal := by
  rw [bounds_iff_side hx]
  cases d with
  | down => exact le_refl x.toReal
  | up => exact le_refl x.toReal

theorem Bounds.trans {d : Direction} {x : Binary64} {s t : ℝ} (h : d.Bounds x s)
    (hst : d.Side s t) : d.Bounds x t := by
  cases d with
  | down => exact ⟨h.1, le_trans h.2 (EReal.coe_le_coe_iff.2 hst)⟩
  | up => exact ⟨h.1, le_trans (EReal.coe_le_coe_iff.2 hst) h.2⟩

/-- The infinity on the safe side. -/
def limit : Direction → Binary64
  | down => negInf
  | up => posInf

/-- The infinity on the safe side bounds everything. -/
theorem bounds_of_rank_eq_limit {d : Direction} {x : Binary64} (h : x.rank = d.limit.rank)
    (t : ℝ) : d.Bounds x t := by
  have hinf : x.isInfinite = true := by
    rw [isInfinite_iff_rank, h]
    cases d with
    | down => decide
    | up => decide
  have hnan := not_nan_of_infinite hinf
  have hpos : (0 : Int) < infinityIndex := by decide
  cases d with
  | down =>
    refine ⟨hnan, ?_⟩
    rcases rank_value_of_infinite hinf with ⟨-, hv⟩ | ⟨hr, -⟩
    · rw [hv]
      exact bot_le
    · have : x.rank = -(infinityIndex : Int) := h.trans rank_negInf
      omega
  | up =>
    refine ⟨hnan, ?_⟩
    rcases rank_value_of_infinite hinf with ⟨hr, -⟩ | ⟨-, hv⟩
    · have : x.rank = (infinityIndex : Int) := h.trans rank_posInf
      omega
    · rw [hv]
      exact le_top

end Direction

/-! ## Ratios of units -/

namespace Binary64

/-- The real number that is `num / den` units. -/
noncomputable def ratio (num : Int) (den : Nat) : ℝ :=
  (num : ℝ) / ((den : ℝ) * (unitsPerOne : ℝ))

section Ratio

variable {d : Direction} {x : Binary64} {num : Int} {den : Nat}

/-- A finite number lies on the safe side of a ratio when the defect says so. -/
theorem bounds_ratio_iff (hden : 0 < den) (hx : x.isFinite = true) :
    d.Bounds x (ratio num den) ↔ d.Side 0 (num - x.units * den) := by
  have hdenR : (0 : ℝ) < (den : ℝ) := Nat.cast_pos.2 hden
  have hunit := unitsPerOne_pos
  have hvalue : x.toReal = ((x.units * den : Int) : ℝ) / ((den : ℝ) * (unitsPerOne : ℝ)) := by
    rw [toReal, Int.cast_mul, Int.cast_natCast, mul_comm (den : ℝ) (unitsPerOne : ℝ),
      mul_div_mul_right _ _ hdenR.ne']
  rw [Direction.bounds_iff_side hx, hvalue, ratio]
  cases d with
  | down =>
    simp only [Direction.Side]
    rw [div_le_div_iff_of_pos_right (mul_pos hdenR hunit), Int.cast_le, Int.sub_nonneg]
  | up =>
    simp only [Direction.Side]
    rw [div_le_div_iff_of_pos_right (mul_pos hdenR hunit), Int.cast_le, sub_nonpos]

/-- A finite number steps past a real that lies between its neighbours. -/
theorem bounds_step_of_between {t : ℝ} (hx : x.isFinite = true)
    (hlow : (unitsOfRank (x.rank - 1) : ℝ) ≤ t * unitsPerOne)
    (hhigh : t * unitsPerOne ≤ (unitsOfRank (x.rank + 1) : ℝ)) : d.Bounds (d.step x) t := by
  have hnan := not_nan_of_finite hx
  -- The neighbour is finite, or it is the infinity on the safe side, which bounds everything.
  have hrank := isFinite_iff_rank.1 hx
  have hlimits := And.intro rank_negInf rank_posInf
  cases d with
  | down =>
    obtain ⟨-, hstep⟩ := rank_nextDown hnan (by omega)
    by_cases hlimit : x.nextDown.rank = negInf.rank
    · exact Direction.bounds_of_rank_eq_limit hlimit t
    · have hfinite : x.nextDown.isFinite = true := by
        rw [isFinite_iff_rank]
        omega
      refine (Direction.bounds_iff_side hfinite).2 ?_
      show x.nextDown.toReal ≤ t
      rw [toReal, div_le_iff₀ unitsPerOne_pos, units_eq_unitsOfRank, hstep]
      exact hlow
  | up =>
    obtain ⟨-, hstep⟩ := rank_nextUp hnan (by omega)
    by_cases hlimit : x.nextUp.rank = posInf.rank
    · exact Direction.bounds_of_rank_eq_limit hlimit t
    · have hfinite : x.nextUp.isFinite = true := by
        rw [isFinite_iff_rank]
        omega
      refine (Direction.bounds_iff_side hfinite).2 ?_
      show t ≤ x.nextUp.toReal
      rw [toReal, le_div_iff₀ unitsPerOne_pos, units_eq_unitsOfRank, hstep]
      exact hhigh

theorem ratio_mul_unitsPerOne (num : Int) (den : Nat) :
    ratio num den * unitsPerOne = (num : ℝ) / (den : ℝ) := by
  rw [ratio, ← div_div, div_mul_cancel₀ _ unitsPerOne_pos.ne']

/-- The neighbour of a rounded ratio on the safe side bounds the ratio. -/
theorem bounds_step_ratio (hden : 0 < den) (hx : x.isFinite = true)
    (hr : x.rank = nearestRank num den) : d.Bounds (d.step x) (ratio num den) := by
  have hrank := isFinite_iff_rank.1 hx
  have hdenR : (0 : ℝ) < (den : ℝ) := Nat.cast_pos.2 hden
  rw [hr] at hrank
  apply bounds_step_of_between hx
  · have hlt := unitsOfRank_pred_lt num hden (by omega)
    rw [ratio_mul_unitsPerOne, le_div_iff₀ hdenR, hr]
    exact_mod_cast hlt.le
  · have hlt := lt_unitsOfRank_succ num hden (by omega)
    rw [ratio_mul_unitsPerOne, div_le_iff₀ hdenR, hr]
    exact_mod_cast hlt.le

/-- A ratio that is rounded to an infinity is bounded by the saturated result. -/
theorem bounds_saturate (hden : 0 < den) (hx : x.isInfinite = true)
    (hr : x.rank = nearestRank num den) : d.Bounds (d.saturate x) (ratio num den) := by
  -- On the safe side an infinity stays; on the other the largest finite number takes its place,
  -- and a ratio that was rounded past it is beyond it.
  have hnan := not_nan_of_infinite hx
  have hrank := isInfinite_iff_rank.1 hx
  have hinf : (0 : Int) < infinityIndex := by decide
  cases d with
  | down =>
    show Direction.down.Bounds (if x == posInf then maxFinite else x) _
    split
    case isTrue h =>
      refine (bounds_ratio_iff hden (by decide)).2 ?_
      have hpos : nearestRank num den = (infinityIndex : Int) :=
        hr.symm.trans ((Binary64.beq_iff.1 h).2.2.trans rank_posInf)
      have hlt := unitsOfRank_pred_lt num hden (by omega)
      rw [hpos, show (infinityIndex : Int) - 1 = maxFinite.rank by decide,
        ← units_eq_unitsOfRank] at hlt
      exact Int.sub_nonneg.2 hlt.le
    case isFalse h =>
      apply Direction.bounds_of_rank_eq_limit
      have hne : x.rank ≠ (infinityIndex : Int) := by
        intro heq
        exact h (Binary64.beq_iff.2 ⟨hnan, by decide, heq.trans rank_posInf.symm⟩)
      show x.rank = negInf.rank
      rw [rank_negInf]
      omega
  | up =>
    show Direction.up.Bounds (if x == negInf then -maxFinite else x) _
    split
    case isTrue h =>
      refine (bounds_ratio_iff hden (by decide)).2 ?_
      have hneg : nearestRank num den = -(infinityIndex : Int) :=
        hr.symm.trans ((Binary64.beq_iff.1 h).2.2.trans rank_negInf)
      have hlt := lt_unitsOfRank_succ num hden (by omega)
      rw [hneg, show -(infinityIndex : Int) + 1 = (-maxFinite).rank by decide,
        ← units_eq_unitsOfRank] at hlt
      exact sub_nonpos.2 hlt.le
    case isFalse h =>
      apply Direction.bounds_of_rank_eq_limit
      have hne : x.rank ≠ -(infinityIndex : Int) := by
        intro heq
        exact h (Binary64.beq_iff.2 ⟨hnan, by decide, heq.trans rank_negInf.symm⟩)
      show x.rank = posInf.rank
      rw [rank_posInf]
      omega

end Ratio

/-! ## Corrected results -/

section Corrected

variable {d : Direction} {x error : Binary64} {defect : Int} {den : Nat}

/-- An error term that is the rounded defect shows a defect of more than half a
unit. -/
theorem wrongSide_iff (hden : 0 < den) (herror : error.rank = nearestRank defect den) :
    d.wrongSide error = true ↔ ¬ d.Side 0 defect ∧ den < 2 * defect.natAbs := by
  have hnan := not_nan_of_nearest hden herror
  have hzero : Binary64.zero.isNaN = false := by decide
  cases d with
  | down =>
    have hneg := nearestRank_neg_iff defect hden
    simp only [Direction.wrongSide, Direction.Side, decide_eq_true_eq, Binary64.lt_iff, hnan, hzero,
      true_and, rank_zero, herror]
    omega
  | up =>
    have hpos := nearestRank_pos_iff defect hden
    simp only [Direction.wrongSide, Direction.Side, decide_eq_true_eq, Binary64.lt_iff, hnan, hzero,
      true_and, rank_zero, herror]
    omega

/-- A corrected result is a bound unless the error term is blind to a defect on the
wrong side. -/
theorem bounds_correct_iff {t : ℝ} (hden : 0 < den) (herror : error.rank = nearestRank defect den)
    (hstep : d.Bounds (d.step x) t) (hx : d.Bounds x t ↔ d.Side 0 defect) :
    d.Bounds (d.correct x error) t ↔ ¬ (2 * defect.natAbs ≤ den ∧ ¬ d.Side 0 defect) := by
  have hwrong := wrongSide_iff (d := d) hden herror
  rw [Direction.correct]
  -- Without a defect on the wrong side the result is kept, and a small one is not seen.
  by_cases hside : d.Side 0 defect
  · have hkept : ¬ d.wrongSide error = true := fun h => (hwrong.1 h).1 hside
    rw [if_neg hkept, hx]
    simp only [hside, not_true_eq_false, and_false, not_false_eq_true]
  · by_cases hsmall : 2 * defect.natAbs ≤ den
    · have hkept : ¬ d.wrongSide error = true := fun h => Nat.not_lt.2 hsmall (hwrong.1 h).2
      rw [if_neg hkept, hx]
      simp only [hside, hsmall, not_false_eq_true, and_self, not_true_eq_false]
    · rw [if_pos (hwrong.2 ⟨hside, Nat.not_le.1 hsmall⟩)]
      simp only [hstep, hsmall, false_and, not_false_eq_true]

theorem isNaN_abs (x : Binary64) : x.abs.isNaN = x.isNaN := by
  rw [isNaN, abs, index_ofIndex false x.index_lt_signWeight, isNaN]

/-- A product or quotient that is settled or corrected is a bound, unless it is a
normal number whose residual is lost. -/
theorem bounds_settled_iff {num : Int} {scale : Nat} {nonzero : Bool} (hden : 0 < den)
    (hscale : 0 < scale) (hr : x.rank = nearestRank num den)
    (herror : x.isFinite = true → error.rank = nearestRank (num - x.units * den) scale)
    (hzero : nonzero = false → num = 0) :
    d.Bounds ((d.settle? x true nonzero).getD (d.correct x error)) (ratio num den) ↔
      ¬ (x.isFinite = true ∧
        (minNormal ≤ x.abs ∧ 2 * (num - x.units * den).natAbs ≤ scale) ∧
        ¬ d.Side 0 (num - x.units * den)) := by
  have hnan := not_nan_of_nearest hden hr
  have hnormal : ¬ x.abs < minNormal → minNormal ≤ x.abs := by
    intro h
    exact Binary64.le_of_not_lt ((isNaN_abs x).trans hnan) (by decide) h
  rw [Direction.settle?, hnan, if_neg Bool.false_ne_true]
  rcases finite_or_infinite hnan with hfinite | hinfinite
  · rw [not_infinite_of_finite hfinite, if_neg Bool.false_ne_true]
    have hstep := bounds_step_ratio (d := d) hden hfinite hr
    have hcorrect := bounds_correct_iff hscale (herror hfinite) hstep
      (bounds_ratio_iff hden hfinite)
    by_cases hsubnormal : x.abs < minNormal
    · have hexcluded : ¬ minNormal ≤ x.abs := by
        intro h
        exact Binary64.lt_irrefl _ (Binary64.lt_of_lt_of_le hsubnormal h)
      simp only [hexcluded, false_and, and_false, not_false_eq_true, iff_true]
      cases nonzero with
      | true =>
        rw [decide_eq_true hsubnormal]
        exact hstep
      | false =>
        -- An exact zero has no defect.
        rw [Bool.false_and, if_neg Bool.false_ne_true, Option.getD_none, hcorrect]
        rintro ⟨-, hwrong⟩
        apply hwrong
        have hnum := hzero rfl
        have hrank : x.rank = 0 := by
          rw [hr, hnum, nearestRank, Int.sign_zero, Int.zero_mul]
        have hunits : x.units = 0 := by
          rw [units_eq_unitsOfRank, hrank]
          rfl
        rw [hnum, hunits, Int.zero_mul]
        exact Direction.side_refl d 0
    · rw [decide_eq_false hsubnormal, Bool.and_false, if_neg Bool.false_ne_true,
        Option.getD_none, hcorrect]
      simp only [hfinite, hnormal hsubnormal, true_and]
  · rw [hinfinite, if_pos rfl, if_pos rfl, Option.getD_some]
    refine iff_of_true (bounds_saturate hden hinfinite hr) ?_
    rintro ⟨h, -⟩
    rw [not_infinite_of_finite h] at hinfinite
    exact absurd hinfinite Bool.false_ne_true

end Corrected

end Binary64

end Paving
