import Paving.Interval.Backward
import Paving.Proofs.Binary64.Endpoints
import Paving.Proofs.Interval.Points

/-!
# What interval operators enclose

Each operator comes with the list of directed roundings it performs. If none of them
is misled, the operator encloses the exact results: the sum of a point of `x` and a
point of `y` is a point of `x + y`, and so on. The backward operators keep every
choice of arguments that is consistent with the result.
-/

set_option autoImplicit false

namespace Paving

/-- None of the roundings is misled. -/
def Reliable (rs : List Rounding) : Prop :=
  ∀ r ∈ rs, ¬ r.Misled

instance (rs : List Rounding) : Decidable (Reliable rs) :=
  inferInstanceAs (Decidable (∀ r ∈ rs, ¬ r.Misled))

theorem reliable_append {rs rs' : List Rounding} :
    Reliable (rs ++ rs') ↔ Reliable rs ∧ Reliable rs' :=
  List.forall_mem_append

theorem Reliable.pair {r r' : Rounding} (h : Reliable [r, r']) : ¬ r.Misled ∧ ¬ r'.Misled :=
  ⟨h r List.mem_cons_self, h r' (List.mem_cons_of_mem _ List.mem_cons_self)⟩

namespace Interval

open Binary64 Direction

/-! ## Forward operators -/

/-- The roundings of a sum. -/
def addRoundings (x y : Interval) : List Rounding :=
  [.sum down x.lb y.lb, .sum up x.ub y.ub]

/-- The roundings of a difference. -/
def subRoundings (x y : Interval) : List Rounding :=
  [.sum down x.lb (-y.ub), .sum up x.ub (-y.lb)]

/-- The roundings of a product with a number. -/
def scaleRoundings (x : Interval) (a : Binary64) : List Rounding :=
  if Binary64.zero < a then [.product down a x.lb, .product up a x.ub]
  else [.product down a x.ub, .product up a x.lb]

/-- The roundings of a quotient by a number. -/
def unscaleRoundings (x : Interval) (a : Binary64) : List Rounding :=
  if Binary64.zero < a then [.quotient down x.lb a, .quotient up x.ub a]
  else [.quotient down x.ub a, .quotient up x.lb a]

/-- The roundings of a square. -/
def sqrRoundings (x : Interval) : List Rounding :=
  if x.ub < Binary64.zero then [.product down x.ub x.ub, .product up x.lb x.lb]
  else if Binary64.zero < x.lb then [.product down x.lb x.lb, .product up x.ub x.ub]
  else [.product up (larger (-x.lb) x.ub) (larger (-x.lb) x.ub)]

/-- The roundings of a square root. -/
def sqrtRoundings (x : Interval) : List Rounding :=
  [.root down x.lb, .root up x.ub]

section Forward

variable {x y : Interval} {a : Binary64} {s t : ℝ}

theorem mem_neg (ht : t ∈ x) : -t ∈ -x := by
  show -t ∈ neg x
  rw [neg, not_isEmpty_of_mem ht]
  exact mem_ofBounds ht.2.neg ht.1.neg

theorem mem_add (hs : s ∈ x) (ht : t ∈ y) (h : Reliable (addRoundings x y)) : s + t ∈ x + y := by
  obtain ⟨hdown, hup⟩ := h.pair
  show s + t ∈ add x y
  rw [add, not_isEmpty_of_mem hs, not_isEmpty_of_mem ht]
  exact mem_ofBounds (bounds_add hs.1 ht.1 hdown) (bounds_add hs.2 ht.2 hup)

theorem mem_sub (hs : s ∈ x) (ht : t ∈ y) (h : Reliable (subRoundings x y)) : s - t ∈ x - y := by
  obtain ⟨hdown, hup⟩ := h.pair
  show s - t ∈ sub x y
  rw [sub, not_isEmpty_of_mem hs, not_isEmpty_of_mem ht]
  exact mem_ofBounds (bounds_sub hs.1 ht.2 hdown) (bounds_sub hs.2 ht.1 hup)

theorem toReal_eq_zero_of_beq (h : (a == Binary64.zero) = true) : a.toReal = 0 := by
  rw [toReal, Rounding.units_eq_zero_of_beq_zero h, Int.cast_zero, zero_div]

theorem rank_ne_zero_of_beq (ha : a.isFinite = true) (h : (a == Binary64.zero) = false) :
    a.rank ≠ 0 := by
  intro hr
  have : (a == Binary64.zero) = true :=
    Binary64.beq_iff.2 ⟨not_nan_of_finite ha, by decide, hr.trans rank_zero.symm⟩
  rw [h] at this
  exact Bool.false_ne_true this

theorem mem_scale (ha : a.isFinite = true) (ht : t ∈ x) (h : Reliable (scaleRoundings x a)) :
    a.toReal * t ∈ x.scale a := by
  rw [scale, not_isEmpty_of_mem ht, ha]
  cases hzero : (a == Binary64.zero) with
  | true =>
    rw [toReal_eq_zero_of_beq hzero, zero_mul]
    exact zero_mem_zero
  | false =>
    have h0 := rank_ne_zero_of_beq ha hzero
    rw [scaleRoundings] at h
    by_cases hpos : Binary64.zero < a
    · rw [if_pos hpos] at h
      obtain ⟨hdown, hup⟩ := h.pair
      simp only [hpos, Bool.not_true, Bool.or_self, Bool.false_eq_true, if_false, if_true]
      apply mem_ofBounds
      · exact bounds_mul ha h0 (by rw [along, if_pos hpos]; exact ht.1) hdown
      · exact bounds_mul ha h0 (by rw [along, if_pos hpos]; exact ht.2) hup
    · rw [if_neg hpos] at h
      obtain ⟨hdown, hup⟩ := h.pair
      simp only [hpos, Bool.not_true, Bool.or_self, Bool.false_eq_true, if_false]
      apply mem_ofBounds
      · exact bounds_mul ha h0 (by rw [along, if_neg hpos]; exact ht.2) hdown
      · exact bounds_mul ha h0 (by rw [along, if_neg hpos]; exact ht.1) hup

theorem mem_unscale (ha : a.isFinite = true) (hzero : (a == Binary64.zero) = false) (ht : t ∈ x)
    (h : Reliable (unscaleRoundings x a)) : t / a.toReal ∈ x.unscale a := by
  have h0 := rank_ne_zero_of_beq ha hzero
  rw [unscale, not_isEmpty_of_mem ht, ha, hzero]
  rw [unscaleRoundings] at h
  by_cases hpos : Binary64.zero < a
  · rw [if_pos hpos] at h
    obtain ⟨hdown, hup⟩ := h.pair
    simp only [hpos, Bool.not_true, Bool.or_self, Bool.false_eq_true, if_false, if_true]
    apply mem_ofBounds
    · exact bounds_div ha h0 (by rw [along, if_pos hpos]; exact ht.1) hdown
    · exact bounds_div ha h0 (by rw [along, if_pos hpos]; exact ht.2) hup
  · rw [if_neg hpos] at h
    obtain ⟨hdown, hup⟩ := h.pair
    simp only [hpos, Bool.not_true, Bool.or_self, Bool.false_eq_true, if_false]
    apply mem_ofBounds
    · exact bounds_div ha h0 (by rw [along, if_neg hpos]; exact ht.2) hdown
    · exact bounds_div ha h0 (by rw [along, if_neg hpos]; exact ht.1) hup

theorem bounds_zero_iff {d : Direction} : d.Bounds Binary64.zero t ↔ d.Side 0 t := by
  rw [bounds_iff_side (by decide), toReal_eq_zero_of_beq (by decide)]

/-- The larger of two numbers bounds from above what one of them does. -/
theorem up_bounds_larger {b c : Binary64} (hb : b.isNaN = false) (hc : c.isNaN = false)
    (h : up.Bounds b t ∨ up.Bounds c t) : up.Bounds (larger b c) t := by
  obtain ⟨hle, hle'⟩ := le_larger hb hc
  rcases h with h | h
  · exact ⟨hle.2.1, le_trans h.2 (value_le_value hle)⟩
  · exact ⟨hle.2.1, le_trans h.2 (value_le_value hle')⟩

/-- The square of an upper bound of the magnitude is an upper bound of the square. -/
theorem up_bounds_square (hpos : up.Bounds a t) (hneg : up.Bounds a (-t))
    (h : ¬ (Rounding.product up a a).Misled) : up.Bounds (up.mul a a) (t * t) := by
  -- The magnitude is bounded by `a`, whichever sign the number has.
  rcases finite_or_infinite hpos.not_nan with hfinite | hinfinite
  · rw [bounds_iff_side hfinite] at hpos hneg
    apply bounds_mul_self hfinite _ h
    exact mul_self_le_mul_self_of_le_of_neg_le hpos hneg
  · exact bounds_mul_self_infinite hinfinite _

/-- A bound below zero is finite when it is an upper one, and a bound above zero when
it is a lower one. -/
theorem isFinite_of_ub_neg (ht : t ∈ x) (h : x.ub < Binary64.zero) : x.ub.isFinite = true := by
  rcases ht.2.finite_or_limit with hfinite | ⟨-, hr⟩
  · exact hfinite
  · have hlt := h.2.2
    rw [hr] at hlt
    exact absurd hlt (by decide)

theorem isFinite_of_lb_pos (ht : t ∈ x) (h : Binary64.zero < x.lb) : x.lb.isFinite = true := by
  rcases ht.1.finite_or_limit with hfinite | ⟨-, hr⟩
  · exact hfinite
  · have hlt := h.2.2
    rw [hr] at hlt
    exact absurd hlt (by decide)

theorem mem_sqr (ht : t ∈ x) (h : Reliable (sqrRoundings x)) : t * t ∈ x.sqr := by
  rw [sqr, not_isEmpty_of_mem ht]
  rw [sqrRoundings] at h
  by_cases hneg : x.ub < Binary64.zero
  · -- All points are negative, and the upper bound has the least square.
    rw [if_pos hneg] at h
    obtain ⟨hdown, hup⟩ := h.pair
    simp only [hneg, Bool.false_eq_true, if_false, if_true]
    have hfinite := isFinite_of_ub_neg ht hneg
    have hub : t ≤ x.ub.toReal := (bounds_iff_side hfinite).1 ht.2
    have hub0 : x.ub.toReal < 0 := toReal_neg_iff.2 (by simpa only [rank_zero] using hneg.2.2)
    have ht0 : t ≤ 0 := le_trans hub hub0.le
    apply mem_ofBounds
    · apply bounds_mul_self hfinite _ hdown
      exact mul_le_mul_of_nonpos_of_nonpos hub hub ht0 hub0.le
    · rcases ht.1.finite_or_limit with hfl | ⟨hil, -⟩
      · have hlb : x.lb.toReal ≤ t := (bounds_iff_side hfl).1 ht.1
        apply bounds_mul_self hfl _ hup
        exact mul_le_mul_of_nonpos_of_nonpos hlb hlb (le_trans hlb ht0) ht0
      · exact bounds_mul_self_infinite hil _
  · rw [if_neg hneg] at h
    by_cases hpos : Binary64.zero < x.lb
    · rw [if_pos hpos] at h
      obtain ⟨hdown, hup⟩ := h.pair
      simp only [hneg, hpos, Bool.false_eq_true, if_false, if_true]
      have hfinite := isFinite_of_lb_pos ht hpos
      have hlb : x.lb.toReal ≤ t := (bounds_iff_side hfinite).1 ht.1
      have hlb0 : 0 < x.lb.toReal := toReal_pos_iff.2 (by simpa only [rank_zero] using hpos.2.2)
      have hside : up.Side t (-t) := by
        show -t ≤ t
        linarith
      apply mem_ofBounds
      · apply bounds_mul_self hfinite _ hdown
        exact mul_self_le_mul_self hlb0.le hlb
      · exact up_bounds_square ht.2 (ht.2.trans hside) hup
    · -- Zero lies between the bounds.
      rw [if_neg hpos] at h
      simp only [hneg, hpos, Bool.false_eq_true, if_false]
      have hnl : (-x.lb).isNaN = false := (isNaN_neg _).trans x.bounds_not_nan.1
      apply mem_ofBounds
      · exact bounds_zero_iff.2 (mul_self_nonneg t)
      · apply up_bounds_square
        · exact up_bounds_larger hnl x.bounds_not_nan.2 (.inr ht.2)
        · exact up_bounds_larger hnl x.bounds_not_nan.2 (.inl ht.1.neg)
        · exact h _ List.mem_cons_self

theorem mem_sqrt (ht : t ∈ x) (h0 : 0 ≤ t) (h : Reliable (sqrtRoundings x)) :
    Real.sqrt t ∈ x.sqrt := by
  obtain ⟨hdown, hup⟩ := h.pair
  -- A point that is not negative keeps the upper bound from being negative.
  have hub : 0 ≤ x.ub.rank := by
    have hle := le_trans (EReal.coe_le_coe_iff.2 h0) ht.2.2
    rw [← value_zero, value_le_value_iff (by decide) ht.2.1, rank_zero] at hle
    exact hle
  have hnotneg : ¬ x.ub < Binary64.zero := by
    intro hlt
    have := hlt.2.2
    rw [rank_zero] at this
    omega
  rw [sqrt, not_isEmpty_of_mem ht, decide_eq_false hnotneg]
  apply mem_ofBounds
  · by_cases hlb : x.lb < Binary64.zero
    · rw [if_pos hlb]
      exact bounds_zero_iff.2 (Real.sqrt_nonneg t)
    · rw [if_neg hlb]
      have hle := (Binary64.le_of_not_lt ht.1.1 (by decide) hlb).2.2
      rw [rank_zero] at hle
      exact bounds_sqrt ht.1 hle hdown
  · exact bounds_sqrt ht.2 hub hup

end Forward

/-! ## Backward operators -/

/-- The roundings of narrowing two summands. -/
def addBackwardRoundings (y x₁ x₂ : Interval) : List Rounding :=
  subRoundings y x₂ ++ subRoundings y (x₁.inter (y - x₂))

/-- The roundings of narrowing minuend and subtrahend. -/
def subBackwardRoundings (y x₁ x₂ : Interval) : List Rounding :=
  addRoundings y x₂ ++ subRoundings (x₁.inter (y + x₂)) y

section Backward

variable {x x₁ x₂ y : Interval} {a : Binary64} {s t : ℝ}

theorem mem_negBackward (ht : t ∈ x) (hy : -t ∈ y) : t ∈ negBackward y x := by
  have hneg := mem_neg hy
  rw [neg_neg] at hneg
  exact mem_inter ht hneg

theorem mem_addBackward (hs : s ∈ x₁) (ht : t ∈ x₂) (hy : s + t ∈ y)
    (h : Reliable (addBackwardRoundings y x₁ x₂)) :
    s ∈ (addBackward y x₁ x₂).1 ∧ t ∈ (addBackward y x₁ x₂).2 := by
  obtain ⟨hfirst, hsecond⟩ := reliable_append.1 h
  have hs' : s ∈ x₁.inter (y - x₂) := by
    have hdiff := mem_sub hy ht hfirst
    rw [add_sub_cancel_right] at hdiff
    exact mem_inter hs hdiff
  have hdiff := mem_sub hy hs' hsecond
  rw [add_sub_cancel_left] at hdiff
  exact ⟨hs', mem_inter ht hdiff⟩

theorem mem_subBackward (hs : s ∈ x₁) (ht : t ∈ x₂) (hy : s - t ∈ y)
    (h : Reliable (subBackwardRoundings y x₁ x₂)) :
    s ∈ (subBackward y x₁ x₂).1 ∧ t ∈ (subBackward y x₁ x₂).2 := by
  obtain ⟨hfirst, hsecond⟩ := reliable_append.1 h
  have hs' : s ∈ x₁.inter (y + x₂) := by
    have hsum := mem_add hy ht hfirst
    rw [sub_add_cancel] at hsum
    exact mem_inter hs hsum
  have hdiff := mem_sub hs' hy hsecond
  rw [sub_sub_cancel] at hdiff
  exact ⟨hs', mem_inter ht hdiff⟩

theorem mem_scaleBackward (ha : a.isFinite = true) (ht : t ∈ x) (hy : a.toReal * t ∈ y)
    (h : Reliable (unscaleRoundings y a)) : t ∈ scaleBackward a y x := by
  rw [scaleBackward, ha]
  cases hzero : (a == Binary64.zero) with
  | true =>
    rw [toReal_eq_zero_of_beq hzero, zero_mul] at hy
    simp only [Bool.not_true, Bool.false_eq_true, if_false, if_true, contains_zero_of_mem hy]
    exact ht
  | false =>
    have hreal : a.toReal ≠ 0 := by
      have h0 := rank_ne_zero_of_beq ha hzero
      intro heq
      rcases lt_or_gt_of_ne h0 with hlt | hgt
      · exact absurd heq (toReal_neg_iff.2 hlt).ne
      · exact absurd heq (toReal_pos_iff.2 hgt).ne'
    have hquotient := mem_unscale ha hzero hy h
    rw [mul_div_cancel_left₀ t hreal] at hquotient
    exact mem_inter ht hquotient

theorem mem_sqrBackward (ht : t ∈ x) (hy : t * t ∈ y) (h : Reliable (sqrtRoundings y)) :
    t ∈ sqrBackward y x := by
  have hroot := mem_sqrt hy (mul_self_nonneg t) h
  rw [Real.sqrt_mul_self_eq_abs] at hroot
  -- The point lies on one of the two branches of the root.
  rcases le_total 0 t with hpos | hneg
  · rw [abs_of_nonneg hpos] at hroot
    exact mem_hull_right (mem_inter ht hroot)
  · rw [abs_of_nonpos hneg] at hroot
    have hreflected := mem_neg hroot
    rw [neg_neg] at hreflected
    exact mem_hull_left (mem_inter ht hreflected)

theorem mem_sqrtBackward (ht : t ∈ x) (h0 : 0 ≤ t) (hy : Real.sqrt t ∈ y)
    (h : Reliable (sqrRoundings y)) : t ∈ sqrtBackward y x := by
  have hsquare := mem_sqr hy h
  rw [Real.mul_self_sqrt h0] at hsquare
  exact mem_inter ht hsquare

end Backward

end Interval

end Paving
