import Paving.Proofs.Binary64.Roundings

/-!
# Directed operations on bounds

The operands of a directed operation are themselves bounds, finite or infinite on
their own side. If none of its roundings is misled, the operation turns bounds for
real numbers into a bound for their sum, difference, product with a number, quotient
by a number, square or root. An infinite operand gives the infinity on the safe
side, which bounds everything; a finite one is a case of `Rounding.bounds_bound_iff`
and of the monotonicity of the operation.
-/

set_option autoImplicit false

namespace Paving

namespace Binary64

/-! ## Signs -/

theorem rank_ne_zero_of_infinite {x : Binary64} (h : x.isInfinite = true) : x.rank ≠ 0 := by
  have hrank := isInfinite_iff_rank.1 h
  have hinf : 0 < infinityIndex := by decide
  omega

/-- Of two numbers that are not both finite one is infinite. -/
theorem infinite_of_not_finite {x y : Binary64} (hx : x.isNaN = false) (hy : y.isNaN = false)
    (h : ¬ (x.isFinite = true ∧ y.isFinite = true)) :
    x.isInfinite = true ∨ y.isInfinite = true := by
  rcases finite_or_infinite hx with hfx | hix
  · exact .inr ((finite_or_infinite hy).resolve_left fun hfy => h ⟨hfx, hfy⟩)
  · exact .inl hix

theorem zero_lt_iff {x : Binary64} (h : x.isNaN = false) : zero < x ↔ 0 < x.rank := by
  rw [Binary64.lt_iff, rank_zero]
  exact ⟨fun hlt => hlt.2.2, fun hlt => ⟨by decide, h, hlt⟩⟩

theorem toReal_pos_iff {x : Binary64} : 0 < x.toReal ↔ 0 < x.rank := by
  rw [toReal, div_pos_iff_of_pos_right unitsPerOne_pos, Int.cast_pos, units_pos_iff]

theorem toReal_neg_iff {x : Binary64} : x.toReal < 0 ↔ x.rank < 0 := by
  have h := toReal_pos_iff (x := -x)
  rw [toReal_neg, rank_neg] at h
  rw [← neg_pos, h]
  omega

theorem units_ne_zero_iff_rank {x : Binary64} : x.units ≠ 0 ↔ x.rank ≠ 0 := by
  rw [units_ne_zero_iff, index_eq_natAbs_rank]
  omega

end Binary64

namespace Direction

open Binary64

/-! ## Directions -/

/-- The other direction. -/
def opposite : Direction → Direction
  | down => up
  | up => down

/-- The side on which a factor or divisor needs the other operand bounded. -/
def along (d : Direction) (c : Binary64) : Direction :=
  if zero < c then d else d.opposite

section Bounds

variable {d : Direction} {a b c : Binary64} {s t : ℝ}

/-- A bound is finite or the infinity on its own side. -/
theorem Bounds.finite_or_limit (h : d.Bounds a t) :
    a.isFinite = true ∨ a.isInfinite = true ∧ a.rank = d.limit.rank := by
  rcases finite_or_infinite h.not_nan with hfinite | hinfinite
  · exact .inl hfinite
  · right
    refine ⟨hinfinite, ?_⟩
    -- The infinity on the other side would bound no real number.
    rcases rank_value_of_infinite hinfinite with ⟨hr, hv⟩ | ⟨hr, hv⟩
    · cases d with
      | down => exact hr.trans rank_negInf.symm
      | up =>
        have hle := h.2
        rw [hv] at hle
        exact absurd (le_bot_iff.1 hle) (EReal.coe_ne_bot t)
    · cases d with
      | down =>
        have hle := h.2
        rw [hv] at hle
        exact absurd (top_le_iff.1 hle) (EReal.coe_ne_top t)
      | up => exact hr.trans rank_posInf.symm

theorem Bounds.neg (h : d.Bounds a t) : d.opposite.Bounds (-a) (-t) := by
  have hnan := (isNaN_neg a).trans h.not_nan
  have hvalue := value_neg h.not_nan
  cases d with
  | down =>
    refine ⟨hnan, ?_⟩
    rw [hvalue, EReal.coe_neg, EReal.neg_le_neg_iff]
    exact h.2
  | up =>
    refine ⟨hnan, ?_⟩
    rw [hvalue, EReal.coe_neg, EReal.neg_le_neg_iff]
    exact h.2

/-! ## Sums and differences -/

/-- A sum with an infinity on the safe side is that infinity. -/
theorem add_eq_of_infinite (ha : d.Bounds a s) (hb : d.Bounds b t)
    (h : a.isInfinite = true ∨ b.isInfinite = true) : (d.add a b).rank = d.limit.rank := by
  rcases ha.finite_or_limit with hfa | ⟨hia, hra⟩
  · have hib : b.isInfinite = true := by
      rcases h with h | h
      · rw [not_infinite_of_finite hfa] at h
        exact absurd h Bool.false_ne_true
      · exact h
    have hrb : b.rank = d.limit.rank := by
      rcases hb.finite_or_limit with hfb | ⟨-, hrb⟩
      · rw [not_finite_of_infinite hib] at hfb
        exact absurd hfb Bool.false_ne_true
      · exact hrb
    rw [Direction.add, add_infinite hfa hib, hib, if_pos rfl, not_finite_of_infinite hib,
      Bool.and_false, if_neg Bool.false_ne_true, hrb]
  · -- Both are infinite on the same side, or only the first is infinite.
    have hsum : a + b = a := by
      show Binary64.add a b = a
      rw [Binary64.add, ha.not_nan, hb.not_nan, hia]
      rcases hb.finite_or_limit with hfb | ⟨hib, hrb⟩
      · rw [not_infinite_of_finite hfb]
        rfl
      · have hsigns : a.negative = b.negative := by
          rw [negative_eq_decide_rank (rank_ne_zero_of_infinite hia),
            negative_eq_decide_rank (rank_ne_zero_of_infinite hib), hra, hrb]
        rw [hib, hsigns, bne_self_eq_false]
        rfl
    rw [Direction.add, hsum, hia, if_pos rfl, not_finite_of_infinite hia, Bool.false_and,
      if_neg Bool.false_ne_true, hra]

/-- Bounds of the summands give a bound of the sum. -/
theorem bounds_add (ha : d.Bounds a s) (hb : d.Bounds b t)
    (h : ¬ (Rounding.sum d a b).Misled) : d.Bounds (d.add a b) (s + t) := by
  -- Finite bounds are summed exactly before rounding; an infinite one carries the sum away.
  by_cases hfinite : a.isFinite = true ∧ b.isFinite = true
  · obtain ⟨hfa, hfb⟩ := hfinite
    refine ((Rounding.bounds_sum_iff hfa hfb).2 h).trans ?_
    rw [bounds_iff_side hfa] at ha
    rw [bounds_iff_side hfb] at hb
    cases d with
    | down => exact add_le_add ha hb
    | up => exact add_le_add ha hb
  · apply bounds_of_rank_eq_limit
    exact add_eq_of_infinite ha hb (infinite_of_not_finite ha.not_nan hb.not_nan hfinite)

/-- A bound of the minuend and an opposite one of the subtrahend give a bound of the
difference. -/
theorem bounds_sub (ha : d.Bounds a s) (hb : d.opposite.Bounds b t)
    (h : ¬ (Rounding.sum d a (-b)).Misled) : d.Bounds (d.sub a b) (s - t) := by
  have hneg : d.Bounds (-b) (-t) := by
    cases d with
    | down => exact hb.neg
    | up => exact hb.neg
  rw [sub_eq_add_neg]
  exact bounds_add ha hneg h

/-! ## Products and quotients -/

/-- The sign of a product or quotient of a factor and an infinite bound makes it the
infinity on the safe side. -/
theorem rank_of_signs {x : Binary64} (hc : c.rank ≠ 0) (hnan : c.isNaN = false)
    (hx : x.isInfinite = true) (hr : x.rank = (d.along c).limit.rank) :
    (ofIndex (c.negative != x.negative) infinityIndex).rank = d.limit.rank := by
  rw [rank_ofIndex _ infinityIndex_lt_signWeight, negative_eq_decide_rank hc,
    negative_eq_decide_rank (rank_ne_zero_of_infinite hx), hr]
  by_cases hpos : zero < c
  · have hrank : ¬ c.rank < 0 := by
      have := (zero_lt_iff hnan).1 hpos
      omega
    rw [along, if_pos hpos, decide_eq_false hrank]
    cases d with
    | down => decide
    | up => decide
  · have hrank : c.rank < 0 := by
      rw [zero_lt_iff hnan] at hpos
      omega
    rw [along, if_neg hpos, decide_eq_true hrank]
    cases d with
    | down => decide
    | up => decide

/-- A result that is infinite because an operand is stays as it is. -/
theorem settle?_infinite {r : Binary64} (hr : r.isInfinite = true) (nonzero : Bool) :
    d.settle? r false nonzero = some r := by
  rw [settle?, not_nan_of_infinite hr, hr]
  rfl

theorem isInfinite_of_rank_eq_limit (h : a.rank = d.limit.rank) : a.isInfinite = true := by
  rw [isInfinite_iff_rank, h]
  cases d with
  | down => decide
  | up => decide

section Factor

variable (hc : c.isFinite = true) (h0 : c.rank ≠ 0)

include hc h0 in
theorem rank_mul_infinite (ha : a.isInfinite = true) (hr : a.rank = (d.along c).limit.rank) :
    (d.mul c a).rank = d.limit.rank := by
  have hproduct : c * a = ofIndex (c.negative != a.negative) infinityIndex := by
    have hca : ¬ c.index = 0 := by
      rw [index_eq_natAbs_rank]
      omega
    have haa : ¬ a.index = 0 := by
      rw [isInfinite_iff.1 ha]
      decide
    show Binary64.mul c a = _
    rw [Binary64.mul, not_nan_of_finite hc, not_nan_of_infinite ha, ha]
    simp only [hca, haa, Bool.or_self, Bool.or_true, Bool.false_eq_true, if_false, if_true,
      decide_false]
  have hrank := rank_of_signs h0 (not_nan_of_finite hc) ha hr
  rw [← hproduct] at hrank
  rw [Rounding.mul_eq_getD, not_finite_of_infinite ha, Bool.and_false,
    settle?_infinite (isInfinite_of_rank_eq_limit hrank)]
  exact hrank

include hc h0 in
theorem rank_div_infinite (ha : a.isInfinite = true) (hr : a.rank = (d.along c).limit.rank) :
    (d.div a c).rank = d.limit.rank := by
  have hquotient : a / c = ofIndex (c.negative != a.negative) infinityIndex := by
    show Binary64.div a c = _
    rw [Binary64.div, not_nan_of_finite hc, not_nan_of_infinite ha, ha, not_infinite_of_finite hc,
      bne_comm]
    rfl
  have hrank := rank_of_signs h0 (not_nan_of_finite hc) ha hr
  rw [← hquotient] at hrank
  rw [Direction.div]
  rw [not_finite_of_infinite ha, Bool.false_and,
    settle?_infinite (isInfinite_of_rank_eq_limit hrank)]
  exact hrank

include hc h0 in
/-- A bound gives a bound of its product with a number. -/
theorem bounds_mul (ha : (d.along c).Bounds a t) (h : ¬ (Rounding.product d c a).Misled) :
    d.Bounds (d.mul c a) (c.toReal * t) := by
  rcases ha.finite_or_limit with hfa | ⟨hia, hra⟩
  -- A positive factor keeps the order of bound and number, a negative one turns it.
  · refine ((Rounding.bounds_product_iff hc hfa).2 h).trans ?_
    rw [bounds_iff_side hfa] at ha
    by_cases hpos : zero < c
    · have hcpos : 0 < c.toReal := toReal_pos_iff.2 ((zero_lt_iff (not_nan_of_finite hc)).1 hpos)
      rw [along, if_pos hpos] at ha
      cases d with
      | down => exact mul_le_mul_of_nonneg_left ha hcpos.le
      | up => exact mul_le_mul_of_nonneg_left ha hcpos.le
    · have hcneg : c.toReal < 0 := by
        rw [toReal_neg_iff]
        rw [zero_lt_iff (not_nan_of_finite hc)] at hpos
        omega
      rw [along, if_neg hpos] at ha
      cases d with
      | down => exact mul_le_mul_of_nonpos_left ha hcneg.le
      | up => exact mul_le_mul_of_nonpos_left ha hcneg.le
  · exact bounds_of_rank_eq_limit (rank_mul_infinite hc h0 hia hra) _

include hc h0 in
/-- A bound gives a bound of its quotient by a number. -/
theorem bounds_div (ha : (d.along c).Bounds a t) (h : ¬ (Rounding.quotient d a c).Misled) :
    d.Bounds (d.div a c) (t / c.toReal) := by
  rcases ha.finite_or_limit with hfa | ⟨hia, hra⟩
  · refine ((Rounding.bounds_quotient_iff hfa hc (units_ne_zero_iff_rank.2 h0)).2 h).trans ?_
    rw [bounds_iff_side hfa] at ha
    by_cases hpos : zero < c
    · have hcpos : 0 < c.toReal := toReal_pos_iff.2 ((zero_lt_iff (not_nan_of_finite hc)).1 hpos)
      rw [along, if_pos hpos] at ha
      cases d with
      | down => exact div_le_div_of_nonneg_right ha hcpos.le
      | up => exact div_le_div_of_nonneg_right ha hcpos.le
    · have hcneg : c.toReal < 0 := by
        rw [toReal_neg_iff]
        rw [zero_lt_iff (not_nan_of_finite hc)] at hpos
        omega
      rw [along, if_neg hpos] at ha
      cases d with
      | down => exact div_le_div_of_nonpos_of_le hcneg.le ha
      | up => exact div_le_div_of_nonpos_of_le hcneg.le ha
  · exact bounds_of_rank_eq_limit (rank_div_infinite hc h0 hia hra) _

end Factor

/-! ## Squares and roots -/

/-- The square of a finite number on the safe side gives a bound. -/
theorem bounds_mul_self (ha : a.isFinite = true) (hside : d.Side (a.toReal * a.toReal) (t * t))
    (h : ¬ (Rounding.product d a a).Misled) : d.Bounds (d.mul a a) (t * t) :=
  ((Rounding.bounds_product_iff ha ha).2 h).trans hside

/-- The square of an infinite number is positive infinity. -/
theorem rank_mul_self_infinite (ha : a.isInfinite = true) : (up.mul a a).rank = posInf.rank := by
  have hproduct : a * a = ofIndex false infinityIndex := by
    have haa : ¬ a.index = 0 := by
      rw [isInfinite_iff.1 ha]
      decide
    show Binary64.mul a a = _
    rw [Binary64.mul, not_nan_of_infinite ha, ha]
    simp only [haa, Bool.or_self, Bool.false_eq_true, if_false, if_true, decide_false,
      bne_self_eq_false]
  rw [Rounding.mul_eq_getD, not_finite_of_infinite ha, Bool.and_false, hproduct,
    settle?_infinite (by decide), Option.getD_some]
  decide

theorem bounds_mul_self_infinite (ha : a.isInfinite = true) (t : ℝ) :
    up.Bounds (up.mul a a) t :=
  bounds_of_rank_eq_limit (d := up) (rank_mul_self_infinite ha) t

/-- The root of an infinity on the safe side that is not negative is that infinity. -/
theorem rank_sqrt_infinite (ha : a.isInfinite = true) (hnonneg : 0 ≤ a.rank)
    (hr : a.rank = d.limit.rank) : (d.sqrt a).rank = d.limit.rank := by
  have hneg : a.negative = false := by
    rw [negative_eq_decide_rank (rank_ne_zero_of_infinite ha)]
    exact decide_eq_false (by omega)
  have hindex : ¬ a.index = 0 := by
    rw [isInfinite_iff.1 ha]
    decide
  have hroot : a.sqrt = a := by
    rw [Binary64.sqrt, not_nan_of_infinite ha, if_neg Bool.false_ne_true, if_neg hindex, hneg,
      if_neg Bool.false_ne_true, ha, if_pos rfl]
  rw [Direction.sqrt]
  rw [hroot, not_finite_of_infinite ha, Bool.not_false, Bool.true_or, if_pos rfl, hr]

/-- A bound that is not negative gives a bound of the root. -/
theorem bounds_sqrt (ha : d.Bounds a t) (hnonneg : 0 ≤ a.rank)
    (h : ¬ (Rounding.root d a).Misled) : d.Bounds (d.sqrt a) (Real.sqrt t) := by
  rcases ha.finite_or_limit with hfa | ⟨hia, hra⟩
  · refine ((Rounding.bounds_root_iff hfa hnonneg).2 h).trans ?_
    rw [bounds_iff_side hfa] at ha
    cases d with
    | down => exact Real.sqrt_le_sqrt ha
    | up => exact Real.sqrt_le_sqrt ha
  · exact bounds_of_rank_eq_limit (rank_sqrt_infinite hia hnonneg hra) _

end Bounds

end Direction

end Paving
