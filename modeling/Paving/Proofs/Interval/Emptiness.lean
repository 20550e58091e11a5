import Paving.Proofs.Binary64.Outward
import Paving.Proofs.Expr.Shape
import Paving.Proofs.Interval.Enclosure

/-!
# When an operator leaves nothing

The bounds of a result are computed one by one, and bounds that cross or are not numbers make
the result empty. For the forward operators this never happens: a non-empty operand holds a
number (`exists_number`), both bounds of the result lie outward of what the operation makes of
that number when it rounds to nearest, and so they are in order
(`admissible_of_outward`). An operator is therefore empty only where an operand is, where a
factor is not finite, or where a root is taken of negative numbers only.
-/

set_option autoImplicit false

namespace Paving

namespace Interval

open Binary64 Direction

/-! ## Numbers of an interval -/

section Numbers

variable {x : Interval} {v : Binary64}

theorem eq_empty_iff : x = empty ↔ x.isEmpty = true := by
  constructor
  · rintro rfl
    exact isEmpty_empty
  · intro h
    rcases eq_empty_or_admissible x with ⟨-, heq⟩ | ⟨hne, -⟩
    · exact heq
    · rw [h] at hne
      cases hne

theorem admissible_of_not_isEmpty (h : x.isEmpty = false) : AdmissibleBounds x.lb x.ub := by
  rcases eq_empty_or_admissible x with ⟨he, -⟩ | ⟨-, hadm⟩
  · rw [h] at he
    cases he
  · exact hadm

theorem toReal_mem_of_rank (hv : v.isFinite = true) (hl : x.lb.rank ≤ v.rank)
    (hu : v.rank ≤ x.ub.rank) : v.toReal ∈ x := by
  obtain ⟨hlb, hub⟩ := x.bounds_not_nan
  have hnan := not_nan_of_finite hv
  rw [mem_iff, ← value_of_finite hv]
  exact ⟨(value_le_value_iff hlb hnan).2 hl, (value_le_value_iff hnan hub).2 hu⟩

/-- A non-empty interval holds a finite number: one of its bounds, or zero if neither of them
is finite. -/
theorem exists_number (h : x.isEmpty = false) :
    ∃ v : Binary64, v.isFinite = true ∧ v.toReal ∈ x := by
  obtain ⟨hle, hlow, hhigh⟩ := admissible_of_not_isEmpty h
  obtain ⟨hlb, hub⟩ := x.bounds_not_nan
  rcases finite_or_infinite hlb with hfinite | hlb
  · exact ⟨x.lb, hfinite, toReal_mem_of_rank hfinite (Int.le_refl _) hle.2.2⟩
  · rcases finite_or_infinite hub with hfinite | hub
    · exact ⟨x.ub, hfinite, toReal_mem_of_rank hfinite hle.2.2 (Int.le_refl _)⟩
    · have hlow' := hlow.2.2
      have hhigh' := hhigh.2.2
      have hlimits := And.intro rank_negInf rank_posInf
      have hl := isInfinite_iff_rank.1 hlb
      have hu := isInfinite_iff_rank.1 hub
      refine ⟨Binary64.zero, by decide, toReal_mem_of_rank (by decide) ?_ ?_⟩
      · rw [rank_zero]
        omega
      · rw [rank_zero]
        omega

/-- Bounds on either side of a rank are in order. -/
theorem admissible_of_outward {lb ub : Binary64} {r : Int} (hl : down.Outward lb r)
    (hu : up.Outward ub r) : AdmissibleBounds lb ub := by
  have hlow := (rank_bounds hl.not_nan).2
  have hhigh := (rank_bounds hu.not_nan).1
  have hle : lb.rank ≤ ub.rank := Int.le_trans hl.side hu.side
  have hlne : lb.rank ≠ posInf.rank := hl.ne_limit
  have hune : ub.rank ≠ negInf.rank := hu.ne_limit
  exact (admissibleBounds_iff_rank hl.not_nan hu.not_nan).2 ⟨hle, by omega, by omega⟩

theorem isEmpty_ofBounds_eq_false {lb ub : Binary64} (h : AdmissibleBounds lb ub) :
    (ofBounds lb ub).isEmpty = false := by
  rw [← Bool.not_eq_true, isEmpty_ofBounds_iff, not_not]
  exact h

end Numbers

/-! ## Reflections, sums and differences -/

section Sums

variable {x y : Interval}

theorem isEmpty_neg (x : Interval) : (-x).isEmpty = x.isEmpty := by
  cases hx : x.isEmpty with
  | true =>
    show (neg x).isEmpty = true
    rw [neg, if_pos hx]
    exact isEmpty_empty
  | false =>
    obtain ⟨v, -, hvx⟩ := exists_number hx
    exact not_isEmpty_of_mem (mem_neg hvx)

theorem admissible_add (hx : x.isEmpty = false) (hy : y.isEmpty = false) :
    AdmissibleBounds (down.add x.lb y.lb) (up.add x.ub y.ub) := by
  obtain ⟨v, hv, hvx⟩ := exists_number hx
  obtain ⟨w, hw, hwy⟩ := exists_number hy
  exact admissible_of_outward (outward_add hv hw hvx.1 hwy.1) (outward_add hv hw hvx.2 hwy.2)

theorem admissible_sub (hx : x.isEmpty = false) (hy : y.isEmpty = false) :
    AdmissibleBounds (down.sub x.lb y.ub) (up.sub x.ub y.lb) := by
  obtain ⟨v, hv, hvx⟩ := exists_number hx
  obtain ⟨w, hw, hwy⟩ := exists_number hy
  have hnegw : (-w).isFinite = true := (isFinite_neg w).trans hw
  have hlow : down.Bounds (-y.ub) (-w).toReal := by
    rw [toReal_neg]
    exact hwy.2.neg
  have hhigh : up.Bounds (-y.lb) (-w).toReal := by
    rw [toReal_neg]
    exact hwy.1.neg
  exact admissible_of_outward (outward_add hv hnegw hvx.1 hlow) (outward_add hv hnegw hvx.2 hhigh)

theorem isEmpty_add (x y : Interval) : (x + y).isEmpty = (x.isEmpty || y.isEmpty) := by
  show (add x y).isEmpty = _
  rw [add]
  cases hx : x.isEmpty with
  | true => exact isEmpty_empty
  | false =>
    cases hy : y.isEmpty with
    | true => exact isEmpty_empty
    | false => exact isEmpty_ofBounds_eq_false (admissible_add hx hy)

theorem isEmpty_sub (x y : Interval) : (x - y).isEmpty = (x.isEmpty || y.isEmpty) := by
  show (sub x y).isEmpty = _
  rw [sub]
  cases hx : x.isEmpty with
  | true => exact isEmpty_empty
  | false =>
    cases hy : y.isEmpty with
    | true => exact isEmpty_empty
    | false => exact isEmpty_ofBounds_eq_false (admissible_sub hx hy)

end Sums

/-! ## Products with a number -/

theorem isEmpty_scale (x : Interval) (a : Binary64) :
    (x.scale a).isEmpty = (x.isEmpty || !a.isFinite) := by
  rw [scale]
  cases hx : x.isEmpty with
  | true => exact isEmpty_empty
  | false =>
    cases ha : a.isFinite with
    | false => exact isEmpty_empty
    | true =>
      cases hzero : (a == Binary64.zero) with
      | true => exact not_isEmpty_of_mem zero_mem_zero
      | false =>
        have h0 := rank_ne_zero_of_beq ha hzero
        obtain ⟨v, hv, hvx⟩ := exists_number hx
        simp only [Bool.not_true, Bool.or_self, Bool.false_eq_true, if_false]
        -- A positive factor keeps lower bounds below, a negative one turns them round.
        split
        case isTrue hpos =>
          refine isEmpty_ofBounds_eq_false (admissible_of_outward (outward_mul ha h0 hv ?_)
            (outward_mul ha h0 hv ?_))
          · rw [along, if_pos hpos]
            exact hvx.1
          · rw [along, if_pos hpos]
            exact hvx.2
        case isFalse hpos =>
          refine isEmpty_ofBounds_eq_false (admissible_of_outward (outward_mul ha h0 hv ?_)
            (outward_mul ha h0 hv ?_))
          · rw [along, if_neg hpos]
            exact hvx.2
          · rw [along, if_neg hpos]
            exact hvx.1

/-! ## Squares and roots -/

section Squares

variable {x : Interval} {a v : Binary64}

/-- The square of a bound farther from zero bounds the rounded square from above. -/
theorem outward_square (hv : v.isFinite = true) (ha : a.isNaN = false)
    (hside : a.isFinite = true → v.units * v.units ≤ a.units * a.units) :
    up.Outward (up.mul a a) (v * v).rank := by
  rcases finite_or_infinite ha with hfinite | hinfinite
  · exact outward_mul_self hfinite hv (hside hfinite)
  · refine outward_of_limit (rank_mul_self_infinite hinfinite) ?_
    rw [rank_mul hv hv]
    exact natAbs_nearestRank_le _ unitsPerOne_pos_nat

theorem admissible_sqr_of_neg (hx : x.isEmpty = false) (hneg : x.ub < Binary64.zero) :
    AdmissibleBounds (down.mul x.ub x.ub) (up.mul x.lb x.lb) := by
  obtain ⟨v, hv, hvx⟩ := exists_number hx
  have hub := isFinite_of_ub_neg hvx hneg
  have hle : v.units ≤ x.ub.units := side_units hub hvx.2
  have hub0 : x.ub.units ≤ 0 := by
    rw [← units_zero, units_le_units_iff]
    exact hneg.2.2.le
  refine admissible_of_outward (outward_mul_self hub hv ?_) (outward_square hv hvx.1.not_nan ?_)
  · exact mul_le_mul_of_nonpos_of_nonpos hle hle (by omega) hub0
  · intro hlb
    have hge : x.lb.units ≤ v.units := side_units hlb hvx.1
    exact mul_le_mul_of_nonpos_of_nonpos hge hge (by omega) (by omega)

theorem admissible_sqr_of_pos (hx : x.isEmpty = false) (hpos : Binary64.zero < x.lb) :
    AdmissibleBounds (down.mul x.lb x.lb) (up.mul x.ub x.ub) := by
  obtain ⟨v, hv, hvx⟩ := exists_number hx
  have hlb := isFinite_of_lb_pos hvx hpos
  have hge : x.lb.units ≤ v.units := side_units hlb hvx.1
  have hlb0 : 0 ≤ x.lb.units := by
    rw [← units_zero, units_le_units_iff]
    exact hpos.2.2.le
  refine admissible_of_outward (outward_mul_self hlb hv ?_) (outward_square hv hvx.2.not_nan ?_)
  · exact Int.mul_le_mul hge hge hlb0 (by omega)
  · intro hub
    have hle : v.units ≤ x.ub.units := side_units hub hvx.2
    exact Int.mul_le_mul hle hle (by omega) (by omega)

theorem admissible_square_from_zero (ha : a.isNaN = false) :
    AdmissibleBounds Binary64.zero (up.mul a a) := by
  have hsquare := outward_square (v := Binary64.zero) (by decide) ha fun _ => by
    rw [units_zero, Int.zero_mul]
    exact mul_self_nonneg a.units
  refine admissible_of_outward ?_ hsquare
  rw [show (Binary64.zero * Binary64.zero).rank = Binary64.zero.rank by decide +kernel]
  exact outward_rank (by decide)

theorem isEmpty_sqr (x : Interval) : x.sqr.isEmpty = x.isEmpty := by
  rw [sqr]
  cases hx : x.isEmpty with
  | true => exact isEmpty_empty
  | false =>
    rw [if_neg Bool.false_ne_true]
    split
    case isTrue hneg => exact isEmpty_ofBounds_eq_false (admissible_sqr_of_neg hx hneg)
    case isFalse =>
      split
      case isTrue hpos => exact isEmpty_ofBounds_eq_false (admissible_sqr_of_pos hx hpos)
      case isFalse =>
        obtain ⟨hlb, hub⟩ := x.bounds_not_nan
        exact isEmpty_ofBounds_eq_false
          (admissible_square_from_zero (not_nan_larger ((isNaN_neg _).trans hlb) hub))

/-- The root of an interval that reaches zero from below begins at zero, and that of any other
one at the root of its lower bound. -/
theorem admissible_sqrt (hx : x.isEmpty = false) (hub : 0 ≤ x.ub.rank) :
    AdmissibleBounds (if x.lb < Binary64.zero then Binary64.zero else down.sqrt x.lb)
      (up.sqrt x.ub) := by
  obtain ⟨hle, hlow, -⟩ := admissible_of_not_isEmpty hx
  split
  case isTrue hneg =>
    have hmem : Binary64.zero.toReal ∈ x := by
      apply toReal_mem_of_rank (by decide) hneg.2.2.le
      rw [rank_zero]
      exact hub
    have hroot : Binary64.zero.sqrt = Binary64.zero :=
      sqrt_of_rank_eq_zero (by decide) rank_zero
    have hhigh := outward_sqrt (by decide) rank_zero.ge hub hmem.2
    rw [hroot] at hhigh
    exact admissible_of_outward (outward_rank (by decide)) hhigh
  case isFalse hneg =>
    have hlb0 : 0 ≤ x.lb.rank := by
      have hge := (Binary64.le_of_not_lt x.bounds_not_nan.1 (by decide) hneg).2.2
      rwa [rank_zero] at hge
    -- A lower bound that is not negative is finite, so the interval holds it.
    have hfinite : x.lb.isFinite = true := by
      have hlt := hlow.2.2
      rw [rank_posInf] at hlt
      rw [isFinite_iff_rank]
      omega
    have hmem := toReal_mem_of_rank hfinite (Int.le_refl _) hle.2.2
    exact admissible_of_outward (outward_sqrt hfinite hlb0 hlb0 hmem.1)
      (outward_sqrt hfinite hlb0 hub hmem.2)

theorem isEmpty_sqrt (x : Interval) :
    x.sqrt.isEmpty = (x.isEmpty || decide (x.ub < Binary64.zero)) := by
  rw [sqrt]
  cases hx : x.isEmpty with
  | true => exact isEmpty_empty
  | false =>
    by_cases hneg : x.ub < Binary64.zero
    · rw [decide_eq_true hneg]
      exact isEmpty_empty
    · have hub := (Binary64.le_of_not_lt x.bounds_not_nan.2 (by decide) hneg).2.2
      rw [rank_zero] at hub
      rw [decide_eq_false hneg]
      exact isEmpty_ofBounds_eq_false (admissible_sqrt hx hub)

end Squares

end Interval

end Paving
