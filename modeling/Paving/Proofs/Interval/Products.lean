import Paving.Proofs.Binary64.Magnitudes
import Paving.Proofs.Interval.Isotony

/-!
# Products, squares and roots of intervals

The bounds of a scaled interval, of a square and of a root are the bounds that its roundings
compute (`bounds_of_mem_scale`, `bounds_of_mem_sqr`, `bounds_of_mem_sqrt`), and each rounding
of finite operands is taken at a point of the operand (`exists_point_of_scaleRoundings` and the
like). So an operator encloses the exact results for all points of its operand if and only if
none of its roundings is misled (`scale_encloses_iff`, `sqr_encloses_iff`,
`sqrt_encloses_iff`). The backward operators through quotients, roots and squares keep every
consistent point under the same conditions (`scaleBackward_keeps_iff`, `sqrBackward_keeps_iff`,
`sqrtBackward_keeps_iff`).

A rounding is misled when its residual vanishes, and residuals of products, quotients and roots
vanish below `2^-969` only. There they do vanish, and the last section shows one miss for each
operator.
-/

set_option autoImplicit false

namespace Paving

/-- A misled rounding of any kind computes something that is no bound. -/
theorem Rounding.Misled.not_bounds {r : Rounding} (h : r.Misled) :
    ¬ r.direction.Bounds r.bound r.exact :=
  fun hbounds => (Rounding.bounds_bound_iff h.defined).1 hbounds h

namespace Interval

open Binary64 Direction

/-! ## Bounds of the points of a result -/

section Points

variable {x y : Interval} {lb ub : Binary64} {t : ℝ}

/-- The points of an interval lie between the numbers it was made of. -/
theorem bounds_of_mem_ofBounds (h : t ∈ ofBounds lb ub) : down.Bounds lb t ∧ up.Bounds ub t := by
  obtain ⟨hlb, hub⟩ := bounds_ofBounds (not_isEmpty_of_mem h)
  have hlow := h.1
  have hhigh := h.2
  rw [hlb] at hlow
  rw [hub] at hhigh
  exact ⟨hlow, hhigh⟩

theorem toReal_endpoint_mem {d : Direction} (h : (x.endpoint d).isFinite = true) :
    (x.endpoint d).toReal ∈ x := by
  cases d with
  | down => exact toReal_lb_mem h
  | up => exact toReal_ub_mem h

theorem mem_pair_iff {f : Direction → Rounding} {r : Rounding} :
    r ∈ [f down, f up] ↔ ∃ d, r = f d := by
  rw [List.mem_pair]
  constructor
  · rintro (rfl | rfl)
    · exact ⟨down, rfl⟩
    · exact ⟨up, rfl⟩
  · rintro ⟨d, rfl⟩
    cases d with
    | down => exact .inl rfl
    | up => exact .inr rfl

theorem inter_subset_right (x y : Interval) : x.inter y ⊆ y := by
  obtain ⟨hxl, hxu⟩ := x.bounds_not_nan
  obtain ⟨hyl, hyu⟩ := y.bounds_not_nan
  cases hy : y.isEmpty with
  | true =>
    rw [inter, hy, Bool.or_true, if_pos rfl]
    exact empty_subset y
  | false =>
    rw [inter]
    split
    case isTrue => exact empty_subset y
    case isFalse =>
      rw [ofBounds]
      split
      case isTrue => exact subset_iff.2 (.inr ⟨hy, (le_larger hxl hyl).2, (smaller_le hxu hyu).2⟩)
      case isFalse => exact empty_subset y

/-- The hull lies in every interval around both parts. -/
theorem hull_subset {z : Interval} (hx : x ⊆ z) (hy : y ⊆ z) : x.hull y ⊆ z := by
  rw [hull]
  split
  case isTrue => exact hy
  case isFalse hxe =>
    split
    case isTrue => exact hx
    case isFalse hye =>
      rcases subset_iff.1 hx with hempty | ⟨hz, hxl, hxu⟩
      · exact absurd hempty hxe
      · rcases subset_iff.1 hy with hempty | ⟨-, hyl, hyu⟩
        · exact absurd hempty hye
        · rw [ofBounds]
          split
          case isFalse => exact empty_subset z
          case isTrue =>
            refine subset_iff.2 (.inr ⟨hz, ?_, ?_⟩)
            · show z.lb ≤ smaller x.lb y.lb
              rw [smaller]
              split
              · exact hyl
              · exact hxl
            · show larger x.ub y.ub ≤ z.ub
              rw [larger]
              split
              · exact hyu
              · exact hxu

end Points

/-! ## Scaling -/

section Scale

variable {x : Interval} {a : Binary64} {r : Rounding} {t : ℝ}

theorem beq_zero_eq_false (h0 : a.units ≠ 0) : (a == Binary64.zero) = false := by
  rw [← Bool.not_eq_true]
  exact fun h => h0 (Rounding.units_eq_zero_of_beq_zero h)

theorem mem_scaleRoundings_iff :
    r ∈ scaleRoundings x a ↔ ∃ d, r = .product d a (x.endpoint (d.along a)) := by
  rw [← mem_pair_iff (f := fun d => .product d a (x.endpoint (d.along a))), scaleRoundings, along,
    along]
  split
  · exact Iff.rfl
  · exact Iff.rfl

/-- The points of a scaled interval lie between the bounds of its roundings. -/
theorem bounds_of_mem_scale (ha : a.isFinite = true) (h0 : a.units ≠ 0) (ht : t ∈ x.scale a)
    (hr : r ∈ scaleRoundings x a) : r.direction.Bounds r.bound t := by
  have hx : x.isEmpty = false := by
    have hscaled := not_isEmpty_of_mem ht
    rw [isEmpty_scale, Bool.or_eq_false_iff] at hscaled
    exact hscaled.1
  obtain ⟨d, rfl⟩ := mem_scaleRoundings_iff.1 hr
  rw [scale_of_ne_zero hx ha (beq_zero_eq_false h0)] at ht
  cases d with
  | down => exact (bounds_of_mem_ofBounds ht).1
  | up => exact (bounds_of_mem_ofBounds ht).2

/-- A misled rounding is the product of a point with a factor that is not zero. -/
theorem exists_point_of_scaleRoundings (hr : r ∈ scaleRoundings x a) (hmisled : r.Misled) :
    a.units ≠ 0 ∧ ∃ t ∈ x, r.exact = a.toReal * t := by
  obtain ⟨d, rfl⟩ := mem_scaleRoundings_iff.1 hr
  have hne := (Rounding.natAbs_of_misled_product hmisled).1
  exact ⟨left_ne_zero_of_mul hne, _, toReal_endpoint_mem hmisled.defined.2, rfl⟩

theorem scale_encloses_iff (ha : a.isFinite = true) (x : Interval) :
    (∀ t ∈ x, a.toReal * t ∈ x.scale a) ↔ Reliable (scaleRoundings x a) := by
  constructor
  · -- A misled rounding is taken at a point, and the result for that point would be missed.
    intro hencloses r hr hmisled
    obtain ⟨h0, t, ht, hexact⟩ := exists_point_of_scaleRoundings hr hmisled
    apply hmisled.not_bounds
    rw [hexact]
    exact bounds_of_mem_scale ha h0 (hencloses t ht) hr
  · intro h t ht
    exact mem_scale ha ht h

end Scale

/-! ## Squares -/

section Sqr

variable {x : Interval} {r : Rounding} {t : ℝ}

theorem bounds_of_mem_sqr (ht : t ∈ x.sqr) (hr : r ∈ sqrRoundings x) :
    r.direction.Bounds r.bound t := by
  have hx : x.isEmpty = false := (isEmpty_sqr x).symm.trans (not_isEmpty_of_mem ht)
  rw [sqr, hx, if_neg Bool.false_ne_true] at ht
  rw [sqrRoundings] at hr
  by_cases hneg : x.ub < Binary64.zero
  · rw [if_pos hneg] at ht hr
    rcases List.mem_pair.1 hr with rfl | rfl
    · exact (bounds_of_mem_ofBounds ht).1
    · exact (bounds_of_mem_ofBounds ht).2
  · rw [if_neg hneg] at ht hr
    by_cases hpos : Binary64.zero < x.lb
    · rw [if_pos hpos] at ht hr
      rcases List.mem_pair.1 hr with rfl | rfl
      · exact (bounds_of_mem_ofBounds ht).1
      · exact (bounds_of_mem_ofBounds ht).2
    · rw [if_neg hpos] at ht hr
      rw [List.mem_singleton.1 hr]
      exact (bounds_of_mem_ofBounds ht).2

/-- A rounding of finite operands is the square of a point. -/
theorem exists_point_of_sqrRoundings (hr : r ∈ sqrRoundings x) (hdefined : r.Defined) :
    ∃ t ∈ x, r.exact = t ^ 2 := by
  rw [sqrRoundings] at hr
  split at hr
  · rcases List.mem_pair.1 hr with rfl | rfl
    · exact ⟨_, toReal_ub_mem hdefined.1, (sq _).symm⟩
    · exact ⟨_, toReal_lb_mem hdefined.1, (sq _).symm⟩
  · split at hr
    · rcases List.mem_pair.1 hr with rfl | rfl
      · exact ⟨_, toReal_lb_mem hdefined.1, (sq _).symm⟩
      · exact ⟨_, toReal_ub_mem hdefined.1, (sq _).symm⟩
    · -- The bound farther from zero is squared, the lower one after its reflection.
      obtain rfl := List.mem_singleton.1 hr
      have hfinite := hdefined.1
      have hreach : larger (-x.lb) x.ub = -x.lb ∨ larger (-x.lb) x.ub = x.ub := by
        rw [larger]
        split
        · exact .inr rfl
        · exact .inl rfl
      rcases hreach with hreach | hreach
      · rw [hreach, isFinite_neg] at hfinite
        refine ⟨_, toReal_lb_mem hfinite, ?_⟩
        rw [Rounding.exact, hreach, toReal_neg, neg_mul_neg, sq]
      · rw [hreach] at hfinite
        refine ⟨_, toReal_ub_mem hfinite, ?_⟩
        rw [Rounding.exact, hreach, sq]

theorem sqr_encloses_iff (x : Interval) :
    (∀ t ∈ x, t ^ 2 ∈ x.sqr) ↔ Reliable (sqrRoundings x) := by
  constructor
  · intro hencloses r hr hmisled
    obtain ⟨t, ht, hexact⟩ := exists_point_of_sqrRoundings hr hmisled.defined
    apply hmisled.not_bounds
    rw [hexact]
    exact bounds_of_mem_sqr (hencloses t ht) hr
  · intro h t ht
    rw [sq]
    exact mem_sqr ht h

end Sqr

/-! ## Roots -/

section Sqrt

variable {x : Interval} {r : Rounding} {t : ℝ}

theorem not_isEmpty_of_mem_sqrt (ht : t ∈ x.sqrt) :
    x.isEmpty = false ∧ ¬ x.ub < Binary64.zero := by
  have hroot := not_isEmpty_of_mem ht
  rw [isEmpty_sqrt, Bool.or_eq_false_iff] at hroot
  exact ⟨hroot.1, of_decide_eq_false hroot.2⟩

theorem mem_sqrtRoundings_iff : r ∈ sqrtRoundings x ↔ ∃ d, r = .root d (x.endpoint d) :=
  mem_pair_iff (f := fun d => .root d (x.endpoint d))

/-- The points of a root lie between the bounds of its roundings, as far as these are
defined. -/
theorem bounds_of_mem_sqrt (ht : t ∈ x.sqrt) (hr : r ∈ sqrtRoundings x) (hdefined : r.Defined) :
    r.direction.Bounds r.bound t := by
  obtain ⟨hx, hub⟩ := not_isEmpty_of_mem_sqrt ht
  rw [sqrt, hx, decide_eq_false hub] at ht
  obtain ⟨hlow, hhigh⟩ := bounds_of_mem_ofBounds ht
  obtain ⟨d, rfl⟩ := mem_sqrtRoundings_iff.1 hr
  cases d with
  | down =>
    -- A defined root has no negative radicand, so the lower bound is not replaced by zero.
    have hlb : ¬ x.lb < Binary64.zero := by
      rw [lt_zero_iff x.bounds_not_nan.1]
      exact Int.not_lt.2 hdefined.2
    rw [if_neg hlb] at hlow
    exact hlow
  | up => exact hhigh

/-- A rounding of a finite operand is the root of a point. -/
theorem exists_point_of_sqrtRoundings (hr : r ∈ sqrtRoundings x) (hdefined : r.Defined) :
    ∃ t ∈ x, 0 ≤ t ∧ r.exact = Real.sqrt t := by
  obtain ⟨d, rfl⟩ := mem_sqrtRoundings_iff.1 hr
  have hnonneg : 0 ≤ (x.endpoint d).toReal := by
    rw [← not_lt, toReal_neg_iff, not_lt]
    exact hdefined.2
  exact ⟨_, toReal_endpoint_mem hdefined.1, hnonneg, rfl⟩

theorem sqrt_encloses_iff (x : Interval) :
    (∀ t ∈ x, 0 ≤ t → Real.sqrt t ∈ x.sqrt) ↔ Reliable (sqrtRoundings x) := by
  constructor
  · intro hencloses r hr hmisled
    obtain ⟨t, ht, hnonneg, hexact⟩ := exists_point_of_sqrtRoundings hr hmisled.defined
    apply hmisled.not_bounds
    rw [hexact]
    exact bounds_of_mem_sqrt (hencloses t ht hnonneg) hr hmisled.defined
  · intro h t ht hnonneg
    exact mem_sqrt ht hnonneg h

end Sqrt

/-! ## Magnitudes -/

section Magnitudes

variable {x : Interval} {a : Binary64} {r : Rounding}

/-- The products, quotients and roots of an interval are not sums. -/
theorem not_sum_of_mem (hr : r ∈ scaleRoundings x a ++ sqrRoundings x ++ sqrtRoundings x ++
    unscaleRoundings x a) (d : Direction) (b c : Binary64) : r ≠ .sum d b c := by
  rintro rfl
  simp only [scaleRoundings, sqrRoundings, sqrtRoundings, unscaleRoundings, List.mem_append] at hr
  rcases hr with ((hr | hr) | hr) | hr
  · split at hr <;> simp at hr
  · split at hr
    · simp at hr
    · split at hr <;> simp at hr
  · simp at hr
  · split at hr <;> simp at hr

end Magnitudes

/-! ## Quotients -/

section Unscale

variable {x y : Interval} {a : Binary64} {r : Rounding} {t : ℝ}

theorem mem_unscaleRoundings_iff :
    r ∈ unscaleRoundings x a ↔ ∃ d, r = .quotient d (x.endpoint (d.along a)) a := by
  rw [← mem_pair_iff (f := fun d => .quotient d (x.endpoint (d.along a)) a), unscaleRoundings,
    along, along]
  split
  · exact Iff.rfl
  · exact Iff.rfl

theorem unscale_of_ne_zero (hx : x.isEmpty = false) (ha : a.isFinite = true)
    (hzero : (a == Binary64.zero) = false) : x.unscale a =
      ofBounds (down.div (x.endpoint (down.along a)) a) (up.div (x.endpoint (up.along a)) a) := by
  rw [unscale, hx, ha, hzero, along, along]
  simp only [Bool.not_true, Bool.or_self, Bool.false_eq_true, if_false]
  split
  · rfl
  · rfl

theorem bounds_of_mem_unscale (ha : a.isFinite = true) (h0 : a.units ≠ 0) (ht : t ∈ x.unscale a)
    (hr : r ∈ unscaleRoundings x a) : r.direction.Bounds r.bound t := by
  have hx : x.isEmpty = false := by
    cases hx : x.isEmpty with
    | false => rfl
    | true =>
      rw [unscale, hx, Bool.true_or, Bool.true_or, if_pos rfl] at ht
      cases not_isEmpty_of_mem ht
  rw [unscale_of_ne_zero hx ha (beq_zero_eq_false h0)] at ht
  obtain ⟨d, rfl⟩ := mem_unscaleRoundings_iff.1 hr
  cases d with
  | down => exact (bounds_of_mem_ofBounds ht).1
  | up => exact (bounds_of_mem_ofBounds ht).2

/-- A rounding of finite operands is the quotient of a point by a number that is not zero. -/
theorem exists_point_of_unscaleRoundings (hr : r ∈ unscaleRoundings x a) (hdefined : r.Defined) :
    a.units ≠ 0 ∧ ∃ t ∈ x, r.exact = t / a.toReal := by
  obtain ⟨d, rfl⟩ := mem_unscaleRoundings_iff.1 hr
  exact ⟨hdefined.2.2, _, toReal_endpoint_mem hdefined.1, rfl⟩

end Unscale

/-! ## Backward operators -/

section Backward

variable {y : Interval} {a : Binary64}

theorem scaleBackward_keeps_iff (ha : a.isFinite = true) (y : Interval) :
    (∀ x : Interval, ∀ t ∈ x, a.toReal * t ∈ y → t ∈ scaleBackward a y x) ↔
      Reliable (unscaleRoundings y a) := by
  constructor
  · intro hkeeps r hr hmisled
    obtain ⟨h0, t, ht, hexact⟩ := exists_point_of_unscaleRoundings hr hmisled.defined
    have hreal : a.toReal ≠ 0 := mt toReal_eq_zero_iff.1 h0
    -- The quotient of the point is consistent, and all reals are narrowed to the quotients.
    have hkept := hkeeps all (t / a.toReal) (mem_all _) (by rwa [mul_div_cancel₀ _ hreal])
    rw [scaleBackward, ha, beq_zero_eq_false h0] at hkept
    apply hmisled.not_bounds
    rw [hexact]
    exact bounds_of_mem_unscale ha h0 (mem_of_subset (inter_subset_right _ _) hkept) hr
  · intro h x t ht hy
    exact mem_scaleBackward ha ht hy h

/-- The real numbers that are not negative. -/
def nonnegatives : Interval :=
  ⟨Binary64.zero, posInf, .inr (by decide)⟩

theorem mem_nonnegatives {t : ℝ} (h : 0 ≤ t) : t ∈ nonnegatives := by
  rw [mem_iff]
  show Binary64.zero.value ≤ (t : EReal) ∧ (t : EReal) ≤ posInf.value
  rw [value_zero, value_posInf]
  exact ⟨EReal.coe_le_coe_iff.2 h, le_top⟩

theorem subset_all (x : Interval) : x ⊆ all := by
  obtain ⟨hl, hu⟩ := x.bounds_not_nan
  exact subset_iff.2 (.inr ⟨by decide, negInf_le hl, le_posInf hu⟩)

/-- The lower bound of a root is not negative. -/
theorem zero_le_rank_sqrt (h : y.sqrt.isEmpty = false) : 0 ≤ y.sqrt.lb.rank := by
  have hranks := ranks_of_subset (sqrt_subset_sqrt (subset_all y)) h
  have hzero : all.sqrt.lb.rank = 0 := by decide +kernel
  omega

/-- Of the numbers that are not negative the square narrows to the root. -/
theorem sqrBackward_nonnegatives_subset (y : Interval) :
    sqrBackward y nonnegatives ⊆ y.sqrt := by
  refine hull_subset ?_ (inter_subset_right _ _)
  have hleft := inter_subset_left nonnegatives (-y.sqrt)
  have hright := inter_subset_right nonnegatives (-y.sqrt)
  cases hmet : (nonnegatives.inter (-y.sqrt)).isEmpty with
  | true => exact subset_of_isEmpty hmet
  | false =>
    -- The reflected root meets them in zero at most, and then the root holds zero as well.
    obtain ⟨-, hzero, -⟩ := ranks_of_subset hleft hmet
    obtain ⟨hneg, -, hhigh⟩ := ranks_of_subset hright hmet
    have hroot : y.sqrt.isEmpty = false := (isEmpty_neg _).symm.trans hneg
    have hnonneg := zero_le_rank_sqrt hroot
    have hmetle := (nonnegatives.inter (-y.sqrt)).lb_le_ub.2.2
    have hrootle := y.sqrt.lb_le_ub.2.2
    have hfirst : nonnegatives.lb.rank = 0 := rank_zero
    have hlast : (-y.sqrt).ub.rank = -y.sqrt.lb.rank := by
      rw [neg_of_not_isEmpty hroot, rank_neg]
    refine subset_iff.2 (.inr ⟨hroot, ⟨y.sqrt.bounds_not_nan.1, bounds_not_nan _ |>.1, ?_⟩,
      bounds_not_nan _ |>.2, y.sqrt.bounds_not_nan.2, ?_⟩)
    · omega
    · omega

theorem sqrBackward_keeps_iff (y : Interval) :
    (∀ x : Interval, ∀ t ∈ x, t ^ 2 ∈ y → t ∈ sqrBackward y x) ↔ Reliable (sqrtRoundings y) := by
  constructor
  · intro hkeeps r hr hmisled
    obtain ⟨t, ht, hnonneg, hexact⟩ := exists_point_of_sqrtRoundings hr hmisled.defined
    -- Over all reals the reflected root could keep what the root misses.
    have hkept := hkeeps nonnegatives (Real.sqrt t) (mem_nonnegatives (Real.sqrt_nonneg t))
      (by rwa [Real.sq_sqrt hnonneg])
    apply hmisled.not_bounds
    rw [hexact]
    exact bounds_of_mem_sqrt (mem_of_subset (sqrBackward_nonnegatives_subset y) hkept) hr
      hmisled.defined
  · intro h x t ht hy
    rw [sq] at hy
    exact mem_sqrBackward ht hy h

/-- The converse is asked of intervals without negative points: their squares are those of
consistent roots. -/
theorem sqrtBackward_keeps_iff (hy : Binary64.zero ≤ y.lb) :
    (∀ x : Interval, ∀ t ∈ x, 0 ≤ t → Real.sqrt t ∈ y → t ∈ sqrtBackward y x) ↔
      Reliable (sqrRoundings y) := by
  constructor
  · intro hkeeps r hr hmisled
    obtain ⟨t, ht, hexact⟩ := exists_point_of_sqrRoundings hr hmisled.defined
    have hnonneg : 0 ≤ t := by
      have hle := le_trans (value_le_value hy) (mem_iff.1 ht).1
      rw [value_zero] at hle
      exact EReal.coe_le_coe_iff.1 hle
    have hkept := hkeeps all (t ^ 2) (mem_all _) (sq_nonneg t) (by rwa [Real.sqrt_sq hnonneg])
    apply hmisled.not_bounds
    rw [hexact]
    exact bounds_of_mem_sqr (mem_of_subset (inter_subset_right _ _) hkept) hr
  · intro h x t ht hnonneg hroot
    exact mem_sqrtBackward ht hnonneg hroot h

end Backward

/-! ## Sound up to lost residuals -/

/-- Products with a number, squares and roots are sound up to lost residuals, for all intervals:
each holds the exact results for all points of its operand exactly if none of its roundings is
misled, and a misled rounding has a product or a radicand that is not zero and below `2^-969`. -/
theorem products_sound_up_to_lost_residuals (x : Interval) {a : Binary64}
    (ha : a.isFinite = true) :
    ((∀ t ∈ x, a.toReal * t ∈ x.scale a) ↔ Reliable (scaleRoundings x a)) ∧
      ((∀ t ∈ x, t ^ 2 ∈ x.sqr) ↔ Reliable (sqrRoundings x)) ∧
      ((∀ t ∈ x, 0 ≤ t → Real.sqrt t ∈ x.sqrt) ↔ Reliable (sqrtRoundings x)) ∧
      ∀ r ∈ scaleRoundings x a ++ sqrRoundings x ++ sqrtRoundings x, r.Misled →
        0 < r.magnitude ∧ r.magnitude < (2 : ℝ) ^ (-969 : ℤ) := by
  refine ⟨scale_encloses_iff ha x, sqr_encloses_iff x, sqrt_encloses_iff x, ?_⟩
  intro r hr hmisled
  exact Rounding.magnitude_of_misled (not_sum_of_mem (List.mem_append_left _ hr)) hmisled

/-- The numbers between the ones nearest to a tenth and to a third. -/
def tenthToThird : Interval :=
  ofBounds ⟨0x3fb999999999999a⟩ ⟨0x3fd5555555555555⟩

/-- The products of these numbers with three, their squares and their roots are enclosed, although
every bound is rounded. -/
theorem tenthToThird_enclosed :
    (⟨0x4008000000000000⟩ : Binary64).isFinite = true ∧
      (∀ t ∈ tenthToThird, (⟨0x4008000000000000⟩ : Binary64).toReal * t ∈
        tenthToThird.scale ⟨0x4008000000000000⟩) ∧
      (∀ t ∈ tenthToThird, t ^ 2 ∈ tenthToThird.sqr) ∧
      ∀ t ∈ tenthToThird, 0 ≤ t → Real.sqrt t ∈ tenthToThird.sqrt := by
  have hfinite : (⟨0x4008000000000000⟩ : Binary64).isFinite = true := by decide
  obtain ⟨hscale, hsqr, hsqrt, -⟩ := products_sound_up_to_lost_residuals tenthToThird hfinite
  exact ⟨hfinite, hscale.2 (by decide +kernel), hsqr.2 (by decide +kernel),
    hsqrt.2 (by decide +kernel)⟩

/-- The interval of the number `2^-510 * (1 + 2^-52)`. -/
def smallFactor : Interval :=
  ofBounds ⟨0x2010000000000001⟩ ⟨0x2010000000000001⟩

/-- The interval of the number `2^-505 * (1 + 2^-52)`. -/
def smallSide : Interval :=
  ofBounds ⟨0x2060000000000001⟩ ⟨0x2060000000000001⟩

/-- The interval of the number `2^-1073`. -/
def smallRadicand : Interval :=
  ofBounds ⟨2⟩ ⟨2⟩

/-- The residuals of the product of `2^-500 * (1 + 2^-52)` and `2^-510 * (1 + 2^-52)`, of the
square of `2^-505 * (1 + 2^-52)` and of the root of `2^-1073` vanish, and the exact results are
lost. -/
theorem lostResiduals_miss :
    (∃ t ∈ smallFactor,
        (⟨0x20b0000000000001⟩ : Binary64).toReal * t ∉ smallFactor.scale ⟨0x20b0000000000001⟩) ∧
      (∃ t ∈ smallSide, t ^ 2 ∉ smallSide.sqr) ∧
      ∃ t ∈ smallRadicand, 0 ≤ t ∧ Real.sqrt t ∉ smallRadicand.sqrt := by
  refine ⟨?_, ?_, ?_⟩
  · have hlost : ¬ Reliable (scaleRoundings smallFactor ⟨0x20b0000000000001⟩) := by
      decide +kernel
    rw [← scale_encloses_iff (by decide)] at hlost
    push Not at hlost
    exact hlost
  · have hlost : ¬ Reliable (sqrRoundings smallSide) := by decide +kernel
    rw [← sqr_encloses_iff] at hlost
    push Not at hlost
    exact hlost
  · have hlost : ¬ Reliable (sqrtRoundings smallRadicand) := by decide +kernel
    rw [← sqrt_encloses_iff] at hlost
    push Not at hlost
    exact hlost

/-- The backward operators through quotients, roots and squares are sound up to lost residuals,
for all intervals. Whatever interval is narrowed, no consistent point is removed exactly if none of
the roundings is misled; for the roots of an interval with negative points this is sufficient.
A misled rounding has a dividend, a radicand or a product that is not zero and below `2^-969`. -/
theorem backward_sound_up_to_lost_residuals (y : Interval) {a : Binary64}
    (ha : a.isFinite = true) :
    ((∀ x : Interval, ∀ t ∈ x, a.toReal * t ∈ y → t ∈ scaleBackward a y x) ↔
        Reliable (unscaleRoundings y a)) ∧
      ((∀ x : Interval, ∀ t ∈ x, t ^ 2 ∈ y → t ∈ sqrBackward y x) ↔
        Reliable (sqrtRoundings y)) ∧
      (Reliable (sqrRoundings y) →
        ∀ x : Interval, ∀ t ∈ x, 0 ≤ t → Real.sqrt t ∈ y → t ∈ sqrtBackward y x) ∧
      (Binary64.zero ≤ y.lb →
        (∀ x : Interval, ∀ t ∈ x, 0 ≤ t → Real.sqrt t ∈ y → t ∈ sqrtBackward y x) →
        Reliable (sqrRoundings y)) ∧
      ∀ r ∈ unscaleRoundings y a ++ sqrtRoundings y ++ sqrRoundings y, r.Misled →
        0 < r.magnitude ∧ r.magnitude < (2 : ℝ) ^ (-969 : ℤ) := by
  refine ⟨scaleBackward_keeps_iff ha y, sqrBackward_keeps_iff y, ?_, ?_, ?_⟩
  · intro h x t ht hnonneg hroot
    exact mem_sqrtBackward ht hnonneg hroot h
  · intro hy hkeeps
    exact (sqrtBackward_keeps_iff hy).1 hkeeps
  · intro r hr hmisled
    refine Rounding.magnitude_of_misled (not_sum_of_mem (x := y) (a := a) ?_) hmisled
    simp only [List.mem_append] at hr ⊢
    tauto

/-- Where a tenth to a third is three times a number, its square or its root, the number is kept. -/
theorem tenthToThird_keeps :
    (⟨0x4008000000000000⟩ : Binary64).isFinite = true ∧
      (∀ x : Interval, ∀ t ∈ x, (⟨0x4008000000000000⟩ : Binary64).toReal * t ∈ tenthToThird →
        t ∈ scaleBackward ⟨0x4008000000000000⟩ tenthToThird x) ∧
      (∀ x : Interval, ∀ t ∈ x, t ^ 2 ∈ tenthToThird → t ∈ sqrBackward tenthToThird x) ∧
      ∀ x : Interval, ∀ t ∈ x, 0 ≤ t → Real.sqrt t ∈ tenthToThird →
        t ∈ sqrtBackward tenthToThird x := by
  have hfinite : (⟨0x4008000000000000⟩ : Binary64).isFinite = true := by decide
  obtain ⟨hscale, hsqr, hsqrt, -⟩ := backward_sound_up_to_lost_residuals tenthToThird hfinite
  exact ⟨hfinite, hscale.2 (by decide +kernel), hsqr.2 (by decide +kernel),
    hsqrt (by decide +kernel)⟩

/-- The interval of the number `2^-1074`. -/
def least : Interval :=
  ofBounds ⟨1⟩ ⟨1⟩

/-- The interval of the number `3 * 2^-1074`. -/
def threeLeast : Interval :=
  ofBounds ⟨3⟩ ⟨3⟩

/-- Consistent points are removed: the quotient of the least number by three times itself, the
root of three times the least number, and the square of `2^-505 * (1 + 2^-52)`. -/
theorem lostResiduals_remove :
    (∃ x : Interval, ∃ t ∈ x, (⟨3⟩ : Binary64).toReal * t ∈ least ∧
        t ∉ scaleBackward ⟨3⟩ least x) ∧
      (∃ x : Interval, ∃ t ∈ x, t ^ 2 ∈ threeLeast ∧ t ∉ sqrBackward threeLeast x) ∧
      ∃ x : Interval, ∃ t ∈ x, 0 ≤ t ∧ Real.sqrt t ∈ smallSide ∧ t ∉ sqrtBackward smallSide x := by
  refine ⟨?_, ?_, ?_⟩
  · have hlost : ¬ Reliable (unscaleRoundings least ⟨3⟩) := by decide +kernel
    rw [← scaleBackward_keeps_iff (by decide)] at hlost
    push Not at hlost
    exact hlost
  · have hlost : ¬ Reliable (sqrtRoundings threeLeast) := by decide +kernel
    rw [← sqrBackward_keeps_iff] at hlost
    push Not at hlost
    exact hlost
  · have hlost : ¬ Reliable (sqrRoundings smallSide) := by decide +kernel
    rw [← sqrtBackward_keeps_iff (by decide +kernel)] at hlost
    push Not at hlost
    exact hlost

end Interval

end Paving
