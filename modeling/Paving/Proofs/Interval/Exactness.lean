import Paving.Proofs.Interval.Isotony

/-!
# Exact results

Where the exact result of an operation is a binary64 number, its enclosure should be that number
and nothing else. For sums, differences and roots of numbers it is: the error term of an exact
result is zero (`rank_add_of_exact`, `rank_sqrt_of_exact`). A product is not corrected by its
residual if it is subnormal, that is below `2^-1022` and not zero. Such a product is widened by one
step on each side although it is exact, and no other one is (`rank_mul_of_exact`). In particular a
factor of one leaves an interval as it is exactly if none of its bounds is subnormal
(`scale_one_iff`), and a factor of minus one reflects it under the same condition
(`scale_negOne_iff`).
-/

set_option autoImplicit false

namespace Paving

namespace Binary64

/-- Not zero, and below the least normal number in magnitude. -/
def Subnormal (v : Binary64) : Prop :=
  v.rank ≠ 0 ∧ v.abs < minNormal

instance (v : Binary64) : Decidable v.Subnormal :=
  inferInstanceAs (Decidable (v.rank ≠ 0 ∧ v.abs < minNormal))

/-- The number one. -/
def one : Binary64 :=
  ⟨0x3ff0000000000000⟩

theorem units_one : one.units = (unitsPerOne : Int) := by
  decide +kernel

section Subnormal

variable {v : Binary64}

theorem subnormal_iff (hv : v.isNaN = false) :
    v.Subnormal ↔ v.rank ≠ 0 ∧ (v.rank.natAbs : Int) < minNormal.rank := by
  rw [Subnormal, abs_lt_minNormal_iff hv]

theorem subnormal_neg_iff (hv : v.isNaN = false) : (-v).Subnormal ↔ v.Subnormal := by
  rw [subnormal_iff hv, subnormal_iff ((isNaN_neg v).trans hv), rank_neg, Int.natAbs_neg,
    Int.neg_ne_zero]

theorem not_subnormal_of_infinite (hv : v.isInfinite = true) : ¬ v.Subnormal := by
  have hnormal : minNormal.rank < (infinityIndex : Int) := by decide
  rw [subnormal_iff (not_nan_of_infinite hv), isInfinite_iff_rank.1 hv]
  exact fun h => Int.lt_irrefl _ (Int.lt_trans h.2 hnormal)

end Subnormal

end Binary64

namespace Direction

open Binary64

/-! ## Directed operations on exact results -/

section Exact

variable {d : Direction} {a b c v : Binary64} {t : ℝ}

/-- A sum that is a number is not widened. -/
theorem rank_add_of_exact (ha : a.isFinite = true) (hb : b.isFinite = true)
    (hv : v.isFinite = true) (h : a.toReal + b.toReal = v.toReal) :
    (d.add a b).rank = v.rank := by
  have hunits : a.units + b.units = v.units := by
    rw [toReal, toReal, ← add_div, toReal, div_left_inj' unitsPerOne_pos.ne'] at h
    exact_mod_cast h
  have hnearest : (a + b).rank = v.rank := by
    rw [rank_add ha hb, hunits, nearestRank_units hv]
  -- The sum lies outward of the number, and it does not pass the number as a bound.
  apply side_antisymm (d := d)
  · rw [← hnearest]
    exact (outward_add ha hb (bounds_toReal ha) (bounds_toReal hb)).side
  · apply side_add ha hb
    rw [h]
    exact bounds_toReal hv

/-- Adjusting depends on the rank of a number only. -/
theorem rank_adjust_congr {x x' : Binary64} {moves : Bool} (hx : x.isNaN = false)
    (hx' : x'.isNaN = false) (h : x.rank = x'.rank) :
    (d.adjust moves x).rank = (d.adjust moves x').rank := by
  have hsame : x.isInfinite = x'.isInfinite := by
    rw [Bool.eq_iff_iff, isInfinite_iff_rank, isInfinite_iff_rank, h]
  rw [rank_adjust hx, rank_adjust hx', hsame, h]

/-- A product that is a number is widened by one step if it is subnormal, and kept otherwise. -/
theorem rank_mul_of_exact (ha : a.isFinite = true) (hb : b.isFinite = true)
    (hv : v.isFinite = true) (h : a.units * b.units = v.units * unitsPerOne) :
    (d.mul a b).rank = (if v.Subnormal then d.step v else v).rank := by
  have hrank : (a * b).rank = v.rank := by
    have hself := nearestRank_unitsOfRank unitsPerOne_pos_nat (isFinite_iff_rank.1 hv)
    rw [rank_mul ha hb, h, units_eq_unitsOfRank, hself]
  have hunits : (a * b).units = v.units := units_eq_iff_rank_eq.2 hrank
  have hp : (a * b).isFinite = true := by
    rw [isFinite_iff_rank, hrank]
    exact isFinite_iff_rank.1 hv
  have hzero : a.units * b.units ≠ 0 ↔ v.rank ≠ 0 := by
    rw [h, mul_ne_zero_iff, units_ne_zero_iff_rank]
    exact and_iff_left (Int.natCast_ne_zero_iff_pos.2 unitsPerOne_pos_nat)
  -- The defect of an exact product is zero, so nothing but a subnormal result makes it move.
  have hmoves : d.productMoves a b = decide v.Subnormal := by
    rw [Bool.eq_iff_iff, decide_eq_true_iff, productMoves_iff ha hb hp, hrank, hunits, hzero, h,
      Int.sub_self, subnormal_iff (not_nan_of_finite hv)]
    exact or_iff_left fun hwrong => hwrong.1 (side_refl d 0)
  rw [mul_eq_adjust ha hb, hmoves,
    rank_adjust_congr (not_nan_of_finite hp) (not_nan_of_finite hv) hrank, adjust_of_finite hv]
  simp only [decide_eq_true_eq]

/-- So an exact product is kept exactly if it is not subnormal. -/
theorem rank_mul_eq_iff_of_exact (ha : a.isFinite = true) (hb : b.isFinite = true)
    (hv : v.isFinite = true) (h : a.units * b.units = v.units * unitsPerOne) :
    (d.mul a b).rank = v.rank ↔ ¬ v.Subnormal := by
  have hstep : (d.step v).rank ≠ v.rank := by
    rw [rank_step hv]
    cases d with
    | down => exact (sub_one_lt v.rank).ne
    | up => exact (lt_add_one v.rank).ne'
  rw [rank_mul_of_exact ha hb hv h]
  split
  case isTrue hsubnormal => exact iff_of_false hstep (not_not_intro hsubnormal)
  case isFalse hnormal => exact iff_of_true rfl hnormal

theorem along_one (d : Direction) : d.along one = d :=
  if_pos (by decide)

theorem along_negOne (d : Direction) : d.along (-one) = d.opposite :=
  if_neg (by decide)

/-- A factor of one keeps a bound that is not subnormal. -/
theorem rank_one_mul_iff (hb : d.Bounds b t) : (d.mul one b).rank = b.rank ↔ ¬ b.Subnormal := by
  rcases hb.finite_or_limit with hfb | ⟨hib, hrb⟩
  · apply rank_mul_eq_iff_of_exact (by decide) hfb hfb
    rw [units_one, Int.mul_comm]
  · refine iff_of_true ?_ (not_subnormal_of_infinite hib)
    rw [rank_mul_infinite (by decide) (by decide) hib (by rw [along_one]; exact hrb), hrb]

/-- A factor of minus one reflects a bound that is not subnormal. -/
theorem rank_negOne_mul_iff (hb : d.opposite.Bounds b t) :
    (d.mul (-one) b).rank = (-b).rank ↔ ¬ b.Subnormal := by
  rcases hb.finite_or_limit with hfb | ⟨hib, hrb⟩
  · rw [← subnormal_neg_iff (not_nan_of_finite hfb)]
    apply rank_mul_eq_iff_of_exact (by decide) hfb ((isFinite_neg b).trans hfb)
    rw [units_neg, units_one, units_neg, Int.neg_mul, Int.neg_mul, Int.mul_comm]
  · refine iff_of_true ?_ (not_subnormal_of_infinite hib)
    rw [rank_mul_infinite (by decide) (by decide) hib (by rw [along_negOne]; exact hrb), rank_neg,
      hrb]
    cases d with
    | down => decide
    | up => decide

/-- A root that is a number is not widened. -/
theorem rank_sqrt_of_exact (ha : a.isFinite = true) (hnonneg : 0 ≤ a.rank)
    (hv : v.isFinite = true) (hv0 : 0 ≤ v.rank)
    (h : v.units * v.units = a.units * unitsPerOne) : (d.sqrt a).rank = v.rank := by
  have hroot : halvesOfRoot (a.units.natAbs * unitsPerOne) = v.units.natAbs * 2 := by
    have hsquare : a.units.natAbs * unitsPerOne = v.units.natAbs * v.units.natAbs := by
      rw [← Int.natAbs_mul, h, Int.natAbs_mul, Int.natAbs_natCast]
    rw [hsquare, halvesOfRoot, Nat.sqrt_eq, if_pos rfl, Nat.mul_comm]
  have hvunits : 0 ≤ v.units := by
    rw [← units_zero, units_le_units_iff, rank_zero]
    exact hv0
  have hrank : a.sqrt.rank = v.rank := by
    have hself := nearestRank_unitsOfRank Nat.two_pos (isFinite_iff_rank.1 hv)
    rw [rank_sqrt_of_nonneg ha hnonneg, hroot, Int.natCast_mul, Int.natAbs_of_nonneg hvunits,
      units_eq_unitsOfRank]
    exact hself
  have hunits : a.sqrt.units = v.units := units_eq_iff_rank_eq.2 hrank
  have hkept : ¬ d.wrongSide (-fusedMulAdd a.sqrt a.sqrt (-a)) = true := by
    rw [wrongSide_iff unitsPerOne_pos_nat (rank_rootError ha hnonneg), hunits, h, Int.sub_self]
    exact fun hwrong => hwrong.1 (side_refl d 0)
  rw [sqrt_eq_adjust ha hnonneg, adjust_of_finite (isFinite_sqrt ha hnonneg), if_neg hkept]
  exact hrank

end Exact

end Direction

namespace Interval

open Binary64 Direction

/-! ## Intervals of one number -/

section Numbers

variable {a b v : Binary64}

theorem isEmpty_number (ha : a.isFinite = true) : (ofBounds a a).isEmpty = false :=
  not_isEmpty_of_mem (toReal_mem_ofBounds ha)

theorem endpoint_number (ha : a.isFinite = true) (d : Direction) :
    (ofBounds a a).endpoint d = a := by
  obtain ⟨hlb, hub⟩ := bounds_ofBounds (isEmpty_number ha)
  cases d with
  | down => exact hlb
  | up => exact hub

/-- The interval of a number is that number. -/
theorem beq_number_iff (hv : v.isFinite = true) {x : Interval} :
    (x == ofBounds v v) = true ↔ x.lb.rank = v.rank ∧ x.ub.rank = v.rank := by
  obtain ⟨hlb, hub⟩ := bounds_ofBounds (isEmpty_number hv)
  rw [beq_iff_rank, hlb, hub]

theorem number_add (ha : a.isFinite = true) (hb : b.isFinite = true) (hv : v.isFinite = true)
    (h : a.toReal + b.toReal = v.toReal) :
    (ofBounds a a + ofBounds b b == ofBounds v v) = true := by
  have hna := isEmpty_number ha
  have hnb := isEmpty_number hb
  rw [beq_number_iff hv, lb_add hna hnb, ub_add hna hnb, (bounds_ofBounds hna).1,
    (bounds_ofBounds hnb).1, (bounds_ofBounds hna).2, (bounds_ofBounds hnb).2]
  exact ⟨rank_add_of_exact ha hb hv h, rank_add_of_exact ha hb hv h⟩

theorem neg_number (hb : b.isFinite = true) : -ofBounds b b = ofBounds (-b) (-b) := by
  have hnb := isEmpty_number hb
  show neg (ofBounds b b) = _
  rw [neg, hnb, if_neg Bool.false_ne_true, (bounds_ofBounds hnb).1, (bounds_ofBounds hnb).2]

theorem number_sub (ha : a.isFinite = true) (hb : b.isFinite = true) (hv : v.isFinite = true)
    (h : a.toReal - b.toReal = v.toReal) :
    (ofBounds a a - ofBounds b b == ofBounds v v) = true := by
  rw [sub_eq_add_neg, neg_number hb]
  apply number_add ha ((isFinite_neg b).trans hb) hv
  rw [toReal_neg, ← h]
  ring

/-- What encloses a product that is exactly a number: the number, or its neighbours if it is
subnormal. -/
def ofProduct (v : Binary64) : Interval :=
  if v.Subnormal then ofBounds v.nextDown v.nextUp else ofBounds v v

theorem beq_ofProduct_iff (hv : v.isFinite = true) {x : Interval} :
    (x == ofProduct v) = true ↔ x.lb.rank = (if v.Subnormal then down.step v else v).rank ∧
      x.ub.rank = (if v.Subnormal then up.step v else v).rank := by
  rw [ofProduct]
  split
  case isTrue =>
    have hneighbours : (ofBounds v.nextDown v.nextUp).isEmpty = false :=
      isEmpty_ofBounds_eq_false
        (admissible_of_outward (outward_step (d := down) hv) (outward_step (d := up) hv))
    rw [beq_iff_rank, (bounds_ofBounds hneighbours).1, (bounds_ofBounds hneighbours).2]
    exact Iff.rfl
  case isFalse => exact beq_number_iff hv

/-- An exact product in units. -/
theorem toReal_mul_eq_iff :
    a.toReal * b.toReal = v.toReal ↔ a.units * b.units = v.units * unitsPerOne := by
  have hunit := unitsPerOne_pos.ne'
  rw [toReal, toReal, toReal, div_mul_div_comm, div_eq_div_iff (mul_ne_zero hunit hunit) hunit,
    ← mul_assoc, mul_left_inj' hunit]
  exact_mod_cast Iff.rfl

theorem number_scale (ha : a.isFinite = true) (hb : b.isFinite = true) (hv : v.isFinite = true)
    (h : a.toReal * b.toReal = v.toReal) : ((ofBounds a a).scale b == ofProduct v) = true := by
  have hna := isEmpty_number ha
  have hunits : b.units * a.units = v.units * unitsPerOne := by
    rw [Int.mul_comm]
    exact toReal_mul_eq_iff.1 h
  have hscaled := isEmpty_scale (ofBounds a a) b
  rw [hna, hb, Bool.not_true, Bool.or_self] at hscaled
  rw [beq_ofProduct_iff hv]
  cases hzero : (b == Binary64.zero) with
  | true =>
    have hv0 : v.rank = 0 := by
      rw [Rounding.units_eq_zero_of_beq_zero hzero, Int.zero_mul, eq_comm, mul_eq_zero,
        or_iff_left (Int.natCast_ne_zero_iff_pos.2 unitsPerOne_pos_nat)] at hunits
      rw [← not_ne_iff, ← units_ne_zero_iff_rank, not_ne_iff]
      exact hunits
    have hnormal : ¬ v.Subnormal := fun hsubnormal => hsubnormal.1 hv0
    rw [scale, hna, hb, hzero, if_neg hnormal, if_neg hnormal, hv0]
    exact ⟨rank_zero, rank_zero⟩
  | false =>
    -- Both bounds are the same number, so the sign of the factor does not matter.
    have hbounds : (ofBounds a a).scale b = ofBounds (down.mul b a) (up.mul b a) := by
      rw [scale_of_ne_zero hna hb hzero, endpoint_number ha, endpoint_number ha]
    rw [hbounds] at hscaled ⊢
    rw [(bounds_ofBounds hscaled).1, (bounds_ofBounds hscaled).2]
    exact ⟨rank_mul_of_exact hb ha hv hunits, rank_mul_of_exact hb ha hv hunits⟩

theorem number_sqr (ha : a.isFinite = true) (hv : v.isFinite = true)
    (h : a.toReal ^ 2 = v.toReal) : ((ofBounds a a).sqr == ofProduct v) = true := by
  have hna := isEmpty_number ha
  obtain ⟨hlb, hub⟩ := bounds_ofBounds hna
  have hunits : a.units * a.units = v.units * unitsPerOne := by
    rw [sq] at h
    exact toReal_mul_eq_iff.1 h
  have hsquare := (isEmpty_sqr (ofBounds a a)).trans hna
  -- The bound closest to zero is the number itself, and the farthest one up to its sign.
  have hclosest : (ofBounds a a).closest.units = a.units := by
    rw [units_eq_iff_rank_eq, rank_closest, hlb, hub]
    omega
  have hrank : (ofBounds a a).farthest.rank.natAbs = a.rank.natAbs := by
    rw [natAbs_rank_farthest, hlb, hub]
    omega
  have hfarthest : (ofBounds a a).farthest.units * (ofBounds a a).farthest.units =
      a.units * a.units :=
    le_antisymm (mul_self_units_le_iff.2 hrank.le) (mul_self_units_le_iff.2 hrank.ge)
  have hfinite : (ofBounds a a).farthest.isFinite = true := by
    rw [isFinite_iff_rank, hrank]
    exact isFinite_iff_rank.1 ha
  rw [sqr_of_not_isEmpty hna] at hsquare ⊢
  rw [beq_ofProduct_iff hv, (bounds_ofBounds hsquare).1, (bounds_ofBounds hsquare).2]
  refine ⟨rank_mul_of_exact (isFinite_closest hna) (isFinite_closest hna) hv ?_,
    rank_mul_of_exact hfinite hfinite hv ?_⟩
  · rw [hclosest, hunits]
  · rw [hfarthest, hunits]

theorem number_sqrt (ha : a.isFinite = true) (hv : v.isFinite = true) (hnonneg : 0 ≤ a.toReal)
    (h : Real.sqrt a.toReal = v.toReal) : ((ofBounds a a).sqrt == ofBounds v v) = true := by
  have hna := isEmpty_number ha
  obtain ⟨hlb, hub⟩ := bounds_ofBounds hna
  have ha0 : 0 ≤ a.rank := by
    rw [← not_lt, ← toReal_neg_iff, not_lt]
    exact hnonneg
  have hv0 : 0 ≤ v.rank := by
    rw [← not_lt, ← toReal_neg_iff, not_lt, ← h]
    exact Real.sqrt_nonneg _
  have hunits : v.units * v.units = a.units * unitsPerOne :=
    toReal_mul_eq_iff.1 (by rw [← h, Real.mul_self_sqrt hnonneg])
  have hub0 : 0 ≤ (ofBounds a a).ub.rank := by rwa [hub]
  have hfrom : (ofBounds a a).rootFrom.rank = a.rank := by
    rw [rank_rootFrom, hlb]
    omega
  have hrooted : (ofBounds a a).sqrt.isEmpty = false := by
    rw [isEmpty_sqrt, hna, Bool.false_or, decide_eq_false_iff_not,
      lt_zero_iff (ofBounds a a).bounds_not_nan.2]
    omega
  rw [sqrt_of_not_isEmpty hna hub0] at hrooted ⊢
  rw [beq_number_iff hv, (bounds_ofBounds hrooted).1, (bounds_ofBounds hrooted).2, hub]
  refine ⟨rank_sqrt_of_exact (rootFrom_mem hna hub0).1 (by omega) hv hv0 ?_,
    rank_sqrt_of_exact ha ha0 hv hv0 hunits⟩
  rw [units_eq_iff_rank_eq.2 hfrom, hunits]

end Numbers

/-! ## Factors of one and minus one -/

theorem scale_one_iff (x : Interval) :
    (x.scale one == x) = true ↔ ¬ x.lb.Subnormal ∧ ¬ x.ub.Subnormal := by
  cases hx : x.isEmpty with
  | true =>
    have hempty : x = empty := eq_empty_iff.2 hx
    subst hempty
    decide +kernel
  | false =>
    obtain ⟨v, -, hv⟩ := exists_number hx
    have hscaled := isEmpty_scale x one
    have hbounds : x.scale one = ofBounds (down.mul one x.lb) (up.mul one x.ub) := by
      rw [scale_of_ne_zero hx (by decide) (by decide), along_one, along_one]
      rfl
    rw [hx, hbounds] at hscaled
    rw [beq_iff_rank, hbounds, (bounds_ofBounds hscaled).1, (bounds_ofBounds hscaled).2,
      rank_one_mul_iff hv.1, rank_one_mul_iff hv.2]

theorem scale_negOne_iff (x : Interval) :
    (x.scale (-one) == -x) = true ↔ ¬ x.lb.Subnormal ∧ ¬ x.ub.Subnormal := by
  cases hx : x.isEmpty with
  | true =>
    have hempty : x = empty := eq_empty_iff.2 hx
    subst hempty
    decide +kernel
  | false =>
    obtain ⟨v, -, hv⟩ := exists_number hx
    have hscaled := isEmpty_scale x (-one)
    have hbounds : x.scale (-one) = ofBounds (down.mul (-one) x.ub) (up.mul (-one) x.lb) := by
      rw [scale_of_ne_zero hx (by decide) (by decide), along_negOne, along_negOne]
      rfl
    rw [hx, hbounds] at hscaled
    rw [beq_iff_rank, hbounds, (bounds_ofBounds hscaled).1, (bounds_ofBounds hscaled).2,
      neg_of_not_isEmpty hx, rank_negOne_mul_iff (d := down) hv.2,
      rank_negOne_mul_iff (d := up) hv.1]
    exact and_comm

/-! ## Results that are numbers -/

/-- Where the exact result of an operation on two numbers is a number, sums, differences and roots
give that number and nothing else. So do products and squares that are not subnormal, and those
that are give its two neighbours. A factor of one keeps an interval, and a factor of minus one
reflects it, exactly if neither bound is subnormal. -/
theorem exact_results_kept_unless_subnormal {a b v : Binary64} (ha : a.isFinite = true)
    (hb : b.isFinite = true) (hv : v.isFinite = true) :
    (a.toReal + b.toReal = v.toReal → (ofBounds a a + ofBounds b b == ofBounds v v) = true) ∧
      (a.toReal - b.toReal = v.toReal → (ofBounds a a - ofBounds b b == ofBounds v v) = true) ∧
      (a.toReal * b.toReal = v.toReal → ((ofBounds a a).scale b ==
        if v.Subnormal then ofBounds v.nextDown v.nextUp else ofBounds v v) = true) ∧
      (a.toReal ^ 2 = v.toReal → ((ofBounds a a).sqr ==
        if v.Subnormal then ofBounds v.nextDown v.nextUp else ofBounds v v) = true) ∧
      (0 ≤ a.toReal → Real.sqrt a.toReal = v.toReal →
        ((ofBounds a a).sqrt == ofBounds v v) = true) ∧
      (∀ x : Interval, (x.scale one == x) = true ↔ ¬ x.lb.Subnormal ∧ ¬ x.ub.Subnormal) ∧
      ∀ x : Interval, (x.scale (-one) == -x) = true ↔ ¬ x.lb.Subnormal ∧ ¬ x.ub.Subnormal :=
  ⟨number_add ha hb hv, number_sub ha hb hv, number_scale ha hb hv, number_sqr ha hv,
    number_sqrt ha hv, scale_one_iff, scale_negOne_iff⟩

/-- The square of `2^-511` is the least normal number and is kept, and that of `2^-512` is half of
it and is widened to its neighbours. -/
theorem squares_around_minNormal :
    (⟨0x2000000000000000⟩ : Binary64).isFinite = true ∧ minNormal.isFinite = true ∧
      (⟨0x2000000000000000⟩ : Binary64).toReal ^ 2 = minNormal.toReal ∧
      ((ofBounds ⟨0x2000000000000000⟩ ⟨0x2000000000000000⟩).sqr ==
        ofBounds minNormal minNormal) = true ∧
      (⟨0x1ff0000000000000⟩ : Binary64).isFinite = true ∧
      (⟨0x0004000000000000⟩ : Binary64).isFinite = true ∧
      (⟨0x1ff0000000000000⟩ : Binary64).toReal ^ 2 = (⟨0x0004000000000000⟩ : Binary64).toReal ∧
      ((ofBounds ⟨0x1ff0000000000000⟩ ⟨0x1ff0000000000000⟩).sqr ==
        ofBounds ⟨0x0003ffffffffffff⟩ ⟨0x0004000000000001⟩) = true := by
  have hnormal : (⟨0x2000000000000000⟩ : Binary64).toReal ^ 2 = minNormal.toReal := by
    rw [sq, toReal_mul_eq_iff]
    decide +kernel
  have hsubnormal : (⟨0x1ff0000000000000⟩ : Binary64).toReal ^ 2 =
      (⟨0x0004000000000000⟩ : Binary64).toReal := by
    rw [sq, toReal_mul_eq_iff]
    decide +kernel
  have hkept := (exact_results_kept_unless_subnormal (b := one)
    (show (⟨0x2000000000000000⟩ : Binary64).isFinite = true by decide) (by decide)
    (show minNormal.isFinite = true by decide)).2.2.2.1 hnormal
  have hwidened := (exact_results_kept_unless_subnormal (b := one)
    (show (⟨0x1ff0000000000000⟩ : Binary64).isFinite = true by decide) (by decide)
    (show (⟨0x0004000000000000⟩ : Binary64).isFinite = true by decide)).2.2.2.1 hsubnormal
  rw [if_neg (by decide +kernel)] at hkept
  rw [if_pos (by decide +kernel)] at hwidened
  exact ⟨by decide, by decide, hnormal, hkept, by decide, by decide, hsubnormal, hwidened⟩

/-- The product of the least positive number with one and the square of `2^-537` are that number
exactly, and both are widened. -/
theorem leastNumber_widened :
    (⟨1⟩ : Binary64).toReal * one.toReal = (⟨1⟩ : Binary64).toReal ∧
      ((ofBounds ⟨1⟩ ⟨1⟩).scale one == ofBounds ⟨1⟩ ⟨1⟩) = false ∧
      (⟨0x1e60000000000000⟩ : Binary64).toReal ^ 2 = (⟨1⟩ : Binary64).toReal ∧
      ((ofBounds ⟨0x1e60000000000000⟩ ⟨0x1e60000000000000⟩).sqr == ofBounds ⟨1⟩ ⟨1⟩) = false := by
  refine ⟨?_, by decide +kernel, ?_, by decide +kernel⟩
  · rw [toReal_mul_eq_iff]
    decide +kernel
  · rw [sq, toReal_mul_eq_iff]
    decide +kernel

end Interval

end Paving
