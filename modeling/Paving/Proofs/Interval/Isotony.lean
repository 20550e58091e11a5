import Paving.Proofs.Binary64.Isotony
import Paving.Proofs.Interval.Sums

/-!
# Operators on smaller intervals

An operator is isotonic if a smaller operand gives a smaller result. Reflections and roots are
(`neg_subset_neg`, `sqrt_subset_sqrt`), and so are sums and differences as long as the larger
operands do not lose an error (`add_subset_add`, `sub_subset_sub`).

A product with a number and a square can overshoot. Their bounds step past zero when a product
vanishes, and a product that is exactly zero does not step. So the smaller operand gives a larger
result if a bound that is zero moves inward to a number whose product vanishes
(`ScaleOvershoots`), or if a square that begins at zero begins at one that vanishes instead
(`SqrOvershoots`). These are the only cases (`scale_subset_scale_iff`, `sqr_subset_sqr_iff`).
-/

set_option autoImplicit false

namespace Paving

namespace Interval

open Binary64 Direction

/-! ## Inclusion by bounds -/

/-- The bound on the side of a direction. -/
def endpoint (x : Interval) : Direction → Binary64
  | down => x.lb
  | up => x.ub

section Inclusion

variable {x y : Interval}

theorem bounds_endpoint {t : ℝ} (ht : t ∈ x) (d : Direction) : d.Bounds (x.endpoint d) t := by
  cases d with
  | down => exact ht.1
  | up => exact ht.2

/-- A non-empty interval has the bounds it was made of. -/
theorem bounds_ofBounds {lb ub : Binary64} (h : (ofBounds lb ub).isEmpty = false) :
    (ofBounds lb ub).lb = lb ∧ (ofBounds lb ub).ub = ub := by
  have hadm : AdmissibleBounds lb ub := by
    rwa [← Bool.not_eq_true, isEmpty_ofBounds_iff, not_not] at h
  rw [ofBounds, dif_pos hadm]
  exact ⟨rfl, rfl⟩

/-- Intervals made of bounds are compared by these, provided that they are not empty. -/
theorem ofBounds_subset_iff {lb ub lb' ub' : Binary64} (h : (ofBounds lb ub).isEmpty = false)
    (h' : (ofBounds lb' ub').isEmpty = false) :
    ofBounds lb ub ⊆ ofBounds lb' ub' ↔ down.Side lb'.rank lb.rank ∧ up.Side ub'.rank ub.rank := by
  obtain ⟨hnl, hnu⟩ := (ofBounds lb ub).bounds_not_nan
  obtain ⟨hnl', hnu'⟩ := (ofBounds lb' ub').bounds_not_nan
  obtain ⟨hlb, hub⟩ := bounds_ofBounds h
  obtain ⟨hlb', hub'⟩ := bounds_ofBounds h'
  rw [hlb] at hnl
  rw [hub] at hnu
  rw [hlb'] at hnl'
  rw [hub'] at hnu'
  rw [subset_iff, h, h', hlb, hub, hlb', hub']
  constructor
  · rintro (hempty | ⟨-, hl, hu⟩)
    · cases hempty
    · exact ⟨hl.2.2, hu.2.2⟩
  · rintro ⟨hl, hu⟩
    exact .inr ⟨rfl, ⟨hnl', hnl, hl⟩, hnu, hnu', hu⟩

/-- The bounds of a non-empty interval lie between those of an interval around it. -/
theorem ranks_of_subset (h : x ⊆ y) (hx : x.isEmpty = false) :
    y.isEmpty = false ∧ y.lb.rank ≤ x.lb.rank ∧ x.ub.rank ≤ y.ub.rank := by
  rcases subset_iff.1 h with hempty | ⟨hy, hl, hu⟩
  · rw [hx] at hempty
    cases hempty
  · exact ⟨hy, hl.2.2, hu.2.2⟩

theorem side_endpoint (h : x ⊆ y) (hx : x.isEmpty = false) (d : Direction) :
    d.Side (y.endpoint d).rank (x.endpoint d).rank := by
  obtain ⟨-, hl, hu⟩ := ranks_of_subset h hx
  cases d with
  | down => exact hl
  | up => exact hu

theorem subset_of_isEmpty (h : x.isEmpty = true) : x ⊆ y :=
  subset_iff.2 (.inl h)

theorem contains_of_subset {v : Binary64} (h : x ⊆ y) (hv : x.contains v = true) :
    y.contains v = true := by
  simp only [contains, Bool.and_eq_true, Bool.not_eq_true', decide_eq_true_eq] at hv ⊢
  obtain ⟨⟨hx, hlow⟩, hhigh⟩ := hv
  rcases subset_iff.1 h with hempty | ⟨hy, hl, hu⟩
  · rw [hx] at hempty
    cases hempty
  · exact ⟨⟨hy, Binary64.le_trans hl hlow⟩, Binary64.le_trans hhigh hu⟩

end Inclusion

/-! ## Reflections, sums and differences -/

section Sums

variable {x x' y y' : Interval}

theorem neg_subset_neg (h : x ⊆ y) : -x ⊆ -y := by
  cases hx : x.isEmpty with
  | true => exact subset_of_isEmpty ((isEmpty_neg x).trans hx)
  | false =>
    obtain ⟨hy, hl, hu⟩ := ranks_of_subset h hx
    obtain ⟨hxl, hxu⟩ := (-x).bounds_not_nan
    obtain ⟨hyl, hyu⟩ := (-y).bounds_not_nan
    refine subset_iff.2 (.inr ⟨(isEmpty_neg y).trans hy, ⟨hyl, hxl, ?_⟩, hxu, hyu, ?_⟩)
    · rw [neg_of_not_isEmpty hx, neg_of_not_isEmpty hy, rank_neg, rank_neg]
      omega
    · rw [neg_of_not_isEmpty hx, neg_of_not_isEmpty hy, rank_neg, rank_neg]
      omega

/-- A bound of the sum loses its error. -/
def LosesError (x y : Interval) : Prop :=
  down.LosesError x.lb y.lb ∨ up.LosesError x.ub y.ub

instance (x y : Interval) : Decidable (x.LosesError y) :=
  inferInstanceAs (Decidable (down.LosesError x.lb y.lb ∨ up.LosesError x.ub y.ub))

theorem add_subset_add (hx : x ⊆ x') (hy : y ⊆ y') (hkept : ¬ x'.LosesError y') :
    x + y ⊆ x' + y' := by
  cases hxe : x.isEmpty with
  | true =>
    apply subset_of_isEmpty
    rw [isEmpty_add, hxe, Bool.true_or]
  | false =>
    cases hye : y.isEmpty with
    | true =>
      apply subset_of_isEmpty
      rw [isEmpty_add, hye, Bool.or_true]
    | false =>
      obtain ⟨hxe', hxl, hxu⟩ := ranks_of_subset hx hxe
      obtain ⟨hye', hyl, hyu⟩ := ranks_of_subset hy hye
      obtain ⟨v, hv, hvx⟩ := exists_number hxe
      obtain ⟨w, hw, hwy⟩ := exists_number hye
      have hvx' := mem_of_subset hx hvx
      have hwy' := mem_of_subset hy hwy
      have hsum : (x + y).isEmpty = false := by rw [isEmpty_add, hxe, hye, Bool.or_self]
      have hsum' : (x' + y').isEmpty = false := by rw [isEmpty_add, hxe', hye', Bool.or_self]
      obtain ⟨hdown, hup⟩ := not_or.1 hkept
      refine subset_iff.2 (.inr ⟨hsum', ⟨(x' + y').bounds_not_nan.1, (x + y).bounds_not_nan.1, ?_⟩,
        (x + y).bounds_not_nan.2, (x' + y').bounds_not_nan.2, ?_⟩)
      · rw [lb_add hxe hye, lb_add hxe' hye']
        exact side_add_bounds (d := down) hv hw hdown hvx'.1 hwy'.1 hvx.1 hwy.1 hxl hyl
      · rw [ub_add hxe hye, ub_add hxe' hye']
        exact side_add_bounds (d := up) hv hw hup hvx'.2 hwy'.2 hvx.2 hwy.2 hxu hyu

theorem sub_subset_sub (hx : x ⊆ x') (hy : y ⊆ y') (hkept : ¬ x'.LosesError (-y')) :
    x - y ⊆ x' - y' := by
  rw [sub_eq_add_neg, sub_eq_add_neg]
  exact add_subset_add hx (neg_subset_neg hy) hkept

end Sums

/-! ## Products with a number -/

section Scale

variable {x y : Interval} {a : Binary64}

/-- A bound of the larger interval is zero, and the factor makes a product that vanishes with
that of the smaller one. -/
def ScaleOvershoots (a : Binary64) (x y : Interval) : Prop :=
  (y.lb.rank = 0 ∧ a.Vanishes x.lb) ∨ (y.ub.rank = 0 ∧ a.Vanishes x.ub)

instance (a : Binary64) (x y : Interval) : Decidable (ScaleOvershoots a x y) :=
  inferInstanceAs
    (Decidable ((y.lb.rank = 0 ∧ a.Vanishes x.lb) ∨ (y.ub.rank = 0 ∧ a.Vanishes x.ub)))

/-- A factor that is not finite, or zero, makes no product vanish. -/
theorem not_scaleOvershoots (h : ∀ b, ¬ a.Vanishes b) : ¬ ScaleOvershoots a x y := by
  rintro (⟨-, hvanishes⟩ | ⟨-, hvanishes⟩)
  · exact h _ hvanishes
  · exact h _ hvanishes

/-- A positive factor takes each bound to the one on its own side, a negative one across. -/
theorem scale_of_ne_zero (hx : x.isEmpty = false) (ha : a.isFinite = true)
    (hzero : (a == Binary64.zero) = false) : x.scale a =
      ofBounds (down.mul a (x.endpoint (down.along a))) (up.mul a (x.endpoint (up.along a))) := by
  rw [scale, hx, ha, hzero, along, along]
  simp only [Bool.not_true, Bool.or_self, Bool.false_eq_true, if_false]
  split
  · rfl
  · rfl

/-- A factor permutes the directions. -/
theorem and_along_iff (p : Direction → Prop) (a : Binary64) :
    p (down.along a) ∧ p (up.along a) ↔ p down ∧ p up := by
  rw [along, along]
  split
  · exact Iff.rfl
  · exact and_comm

theorem scale_subset_scale_iff_of_ne_zero (h : x ⊆ y) (hx : x.isEmpty = false)
    (ha : a.isFinite = true) (hzero : (a == Binary64.zero) = false) :
    x.scale a ⊆ y.scale a ↔ ¬ ScaleOvershoots a x y := by
  have h0 := rank_ne_zero_of_beq ha hzero
  have hy := (ranks_of_subset h hx).1
  have hscaled : (x.scale a).isEmpty = false := by
    rw [isEmpty_scale, hx, ha]
    rfl
  have hscaled' : (y.scale a).isEmpty = false := by
    rw [isEmpty_scale, hy, ha]
    rfl
  -- A number of the smaller interval shows that infinite bounds point outward.
  obtain ⟨v, hv, hvx⟩ := exists_number hx
  have hvy := mem_of_subset h hvx
  have hside : ∀ d : Direction, d.Side (d.mul a (y.endpoint (d.along a))).rank
      (d.mul a (x.endpoint (d.along a))).rank ↔
        ¬ ((y.endpoint (d.along a)).rank = 0 ∧ a.Vanishes (x.endpoint (d.along a))) :=
    fun d => side_mul_bounds_iff ha h0 hv (bounds_endpoint hvy _) (bounds_endpoint hvx _)
      (side_endpoint h hx _)
  rw [scale_of_ne_zero hx ha hzero] at hscaled ⊢
  rw [scale_of_ne_zero hy ha hzero] at hscaled' ⊢
  rw [ofBounds_subset_iff hscaled hscaled', hside, hside,
    and_along_iff fun d => ¬ ((y.endpoint d).rank = 0 ∧ a.Vanishes (x.endpoint d)), ← not_or]
  exact Iff.rfl

theorem scale_subset_scale_iff (h : x ⊆ y) :
    x.scale a ⊆ y.scale a ↔ ¬ ScaleOvershoots a x y := by
  cases hx : x.isEmpty with
  | true =>
    refine iff_of_true (subset_of_isEmpty (by rw [isEmpty_scale, hx, Bool.true_or])) ?_
    have hempty : x = empty := eq_empty_iff.2 hx
    subst hempty
    have hinfinite : ¬ negInf.isFinite = true := by decide
    rintro (⟨-, hvanishes⟩ | ⟨-, hvanishes⟩)
    · exact hinfinite hvanishes.finite_right
    · exact hinfinite hvanishes.finite_right
  | false =>
    cases ha : a.isFinite with
    | false =>
      refine iff_of_true (subset_of_isEmpty ?_) (not_scaleOvershoots fun b hb => ?_)
      · rw [isEmpty_scale, ha, Bool.not_false, Bool.or_true]
      · rw [hb.finite_left] at ha
        cases ha
    | true =>
      cases hzero : (a == Binary64.zero) with
      | true =>
        have hscaled : ∀ z : Interval, z.isEmpty = false → z.scale a = Interval.zero := by
          intro z hz
          rw [scale, hz, ha, hzero]
          rfl
        rw [hscaled x hx, hscaled y (ranks_of_subset h hx).1]
        refine iff_of_true (subset_refl _) (not_scaleOvershoots fun b hb => ?_)
        exact hb.ne_zero (by rw [Rounding.units_eq_zero_of_beq_zero hzero, Int.zero_mul])
      | false => exact scale_subset_scale_iff_of_ne_zero h hx ha hzero

end Scale

/-! ## Squares -/

section Sqr

variable {x y : Interval}

/-- The number closest to zero that lies between the bounds. -/
def closest (x : Interval) : Binary64 :=
  if x.ub < Binary64.zero then x.ub else if Binary64.zero < x.lb then x.lb else Binary64.zero

/-- The bound farthest from zero, as far as its square is concerned. -/
def farthest (x : Interval) : Binary64 :=
  if x.ub < Binary64.zero then x.lb
  else if Binary64.zero < x.lb then x.ub else larger (-x.lb) x.ub

/-- The larger interval holds zero, and the square of the smaller one begins with one that
vanishes. -/
def SqrOvershoots (x y : Interval) : Prop :=
  y.closest.rank = 0 ∧ x.closest.Vanishes x.closest

instance (x y : Interval) : Decidable (SqrOvershoots x y) :=
  inferInstanceAs (Decidable (y.closest.rank = 0 ∧ x.closest.Vanishes x.closest))

theorem sqr_of_not_isEmpty (hx : x.isEmpty = false) :
    x.sqr = ofBounds (down.mul x.closest x.closest) (up.mul x.farthest x.farthest) := by
  rw [sqr, hx, if_neg Bool.false_ne_true, closest, farthest]
  split
  · rfl
  · split
    · rfl
    · -- Around zero the square begins at zero, which is the directed square of zero.
      rw [show down.mul Binary64.zero Binary64.zero = Binary64.zero by decide +kernel]

theorem rank_closest (x : Interval) : x.closest.rank = max x.lb.rank (min x.ub.rank 0) := by
  obtain ⟨hl, hu⟩ := x.bounds_not_nan
  have hle := x.lb_le_ub.2.2
  rw [closest]
  simp only [lt_zero_iff hu, zero_lt_iff hl]
  split
  · omega
  · split
    · omega
    · rw [rank_zero]
      omega

theorem natAbs_rank_farthest (x : Interval) :
    x.farthest.rank.natAbs = max x.lb.rank.natAbs x.ub.rank.natAbs := by
  obtain ⟨hl, hu⟩ := x.bounds_not_nan
  have hle := x.lb_le_ub.2.2
  have hreach := rank_larger ((isNaN_neg x.lb).trans hl) hu
  rw [rank_neg] at hreach
  rw [farthest]
  simp only [lt_zero_iff hu, zero_lt_iff hl]
  split
  · omega
  · split
    · omega
    · omega

theorem not_nan_farthest (x : Interval) : x.farthest.isNaN = false := by
  obtain ⟨hl, hu⟩ := x.bounds_not_nan
  rw [isNaN_eq_false_iff_rank] at hl hu ⊢
  rw [natAbs_rank_farthest]
  omega

/-- The square of a number farther from zero does not pass that of a closer one. -/
theorem side_square {a b : Binary64} (ha : a.isNaN = false) (hb : b.isNaN = false)
    (h : b.rank.natAbs ≤ a.rank.natAbs) : up.Side (up.mul a a).rank (up.mul b b).rank := by
  rcases finite_or_infinite ha with hfa | hia
  · have hfb : b.isFinite = true := by
      rw [isFinite_iff_rank] at hfa ⊢
      omega
    have hsquares := mul_self_units_le_iff.2 h
    refine (side_mul_iff (d := up) hfa hfa hfb hfb hsquares).2 ?_
    rintro ⟨hzero, hvanishes⟩
    rw [hzero] at hsquares
    exact hvanishes.ne_zero (le_antisymm hsquares (mul_self_nonneg _))
  · -- The square of an infinite bound is outward of every square.
    refine side_of_outward (rank_mul_self_infinite hia)
      (outward_square (v := Binary64.zero) (by decide) hb fun _ => ?_)
    rw [units_zero, Int.zero_mul]
    exact mul_self_nonneg b.units

theorem isFinite_closest (hx : x.isEmpty = false) : x.closest.isFinite = true := by
  obtain ⟨-, hlow, hhigh⟩ := admissible_of_not_isEmpty hx
  have hlow' := hlow.2.2
  have hhigh' := hhigh.2.2
  have hlimits := And.intro rank_negInf rank_posInf
  have hinf : (0 : Int) < infinityIndex := by decide
  rw [isFinite_iff_rank, rank_closest]
  omega

theorem sqr_subset_sqr_iff (h : x ⊆ y) : x.sqr ⊆ y.sqr ↔ ¬ SqrOvershoots x y := by
  cases hx : x.isEmpty with
  | true =>
    refine iff_of_true (subset_of_isEmpty ((isEmpty_sqr x).trans hx)) fun hovershoots => ?_
    have hempty : x = empty := eq_empty_iff.2 hx
    subst hempty
    exact absurd hovershoots.2.finite_left (by decide)
  | false =>
    obtain ⟨hy, hl, hu⟩ := ranks_of_subset h hx
    have hle := x.lb_le_ub.2.2
    have hsquare := (isEmpty_sqr x).trans hx
    have hsquare' := (isEmpty_sqr y).trans hy
    rw [sqr_of_not_isEmpty hx] at hsquare ⊢
    rw [sqr_of_not_isEmpty hy] at hsquare' ⊢
    have hclosest : y.closest.rank.natAbs ≤ x.closest.rank.natAbs := by
      rw [rank_closest, rank_closest]
      omega
    have hfarthest : x.farthest.rank.natAbs ≤ y.farthest.rank.natAbs := by
      rw [natAbs_rank_farthest, natAbs_rank_farthest]
      omega
    have hfx := isFinite_closest hx
    have hfy := isFinite_closest hy
    have hlower : down.Side (down.mul y.closest y.closest).rank
        (down.mul x.closest x.closest).rank ↔ ¬ SqrOvershoots x y := by
      rw [side_mul_iff (d := down) hfy hfy hfx hfx (mul_self_units_le_iff.2 hclosest),
        mul_self_eq_zero, SqrOvershoots, ← not_ne_iff, units_ne_zero_iff_rank, not_ne_iff]
    -- The upper bounds are in order whatever the lower ones do.
    have hupper := side_square (not_nan_farthest y) (not_nan_farthest x) hfarthest
    rw [ofBounds_subset_iff hsquare hsquare', hlower]
    exact and_iff_left hupper

end Sqr

/-! ## Roots -/

section Sqrt

variable {x y : Interval}

/-- The least number that is not negative and lies between the bounds. -/
def rootFrom (x : Interval) : Binary64 :=
  if x.lb < Binary64.zero then Binary64.zero else x.lb

theorem rank_rootFrom (x : Interval) : x.rootFrom.rank = max x.lb.rank 0 := by
  rw [rootFrom]
  simp only [lt_zero_iff x.bounds_not_nan.1]
  split
  · rw [rank_zero]
    omega
  · omega

theorem sqrt_of_not_isEmpty (hx : x.isEmpty = false) (hub : 0 ≤ x.ub.rank) :
    x.sqrt = ofBounds (down.sqrt x.rootFrom) (up.sqrt x.ub) := by
  have hnotneg : ¬ x.ub < Binary64.zero := by
    rw [lt_zero_iff x.bounds_not_nan.2]
    omega
  rw [sqrt, hx, decide_eq_false hnotneg, rootFrom]
  simp only [Bool.or_self, Bool.false_eq_true, if_false]
  split
  · rw [show down.sqrt Binary64.zero = Binary64.zero by decide +kernel]
  · rfl

theorem rootFrom_mem (hx : x.isEmpty = false) (hub : 0 ≤ x.ub.rank) :
    x.rootFrom.isFinite = true ∧ x.rootFrom.toReal ∈ x := by
  have hle := x.lb_le_ub.2.2
  have hlow := (admissible_of_not_isEmpty hx).2.1.2.2
  have hrank := rank_rootFrom x
  have hlimits := And.intro rank_negInf rank_posInf
  have hinf : (0 : Int) < infinityIndex := by decide
  have hfinite : x.rootFrom.isFinite = true := by
    rw [isFinite_iff_rank]
    omega
  exact ⟨hfinite, toReal_mem_of_rank hfinite (by omega) (by omega)⟩

theorem sqrt_subset_sqrt (h : x ⊆ y) : x.sqrt ⊆ y.sqrt := by
  cases hroot : x.sqrt.isEmpty with
  | true => exact subset_of_isEmpty hroot
  | false =>
    have hroot' := hroot
    rw [isEmpty_sqrt, Bool.or_eq_false_iff, decide_eq_false_iff_not,
      lt_zero_iff x.bounds_not_nan.2] at hroot'
    obtain ⟨hx, hub⟩ := hroot'
    obtain ⟨hy, hl, hu⟩ := ranks_of_subset h hx
    have hub' : 0 ≤ y.ub.rank := by omega
    have hrooty : y.sqrt.isEmpty = false := by
      rw [isEmpty_sqrt, hy, Bool.false_or, decide_eq_false_iff_not, lt_zero_iff y.bounds_not_nan.2]
      omega
    rw [sqrt_of_not_isEmpty hx (by omega)] at hroot ⊢
    rw [sqrt_of_not_isEmpty hy hub'] at hrooty ⊢
    obtain ⟨hfx, hmem⟩ := rootFrom_mem hx (by omega)
    obtain ⟨hfy, -⟩ := rootFrom_mem hy hub'
    have hrx := rank_rootFrom x
    have hry := rank_rootFrom y
    refine (ofBounds_subset_iff hroot hrooty).2 ⟨?_, ?_⟩
    · exact side_sqrt_of_side (d := down) hfy (by omega) hfx (by omega)
        (show y.rootFrom.rank ≤ x.rootFrom.rank by omega)
    · exact side_sqrt_bounds (d := up) hfx (by omega) hub' (by omega) (mem_of_subset h hmem).2
        hmem.2 hu

end Sqrt

end Interval

end Paving
