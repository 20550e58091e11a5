import Paving.Proofs.Binary64.LostErrors

/-!
# Directed operations and the order of their operands

If the operands of a directed operation move inward, its result should not move outward. All
that a directed product or root does to the result rounded to nearest is to cut an overflow back
or to step to the neighbour (`adjust`). Rounding to nearest keeps the order, so two results that
are rounded to different numbers stay in order even if only the inner one steps. What is left
are results that are rounded to the same number, and there the outer one has to step whenever
the inner one does (`side_adjust`).

Where the error decides, this holds: the defect of the outer result is the larger one
(`shown_of_side`). Roots are therefore isotonic (`side_sqrt_bounds`), and so are sums that do
not lose their error (`side_add_bounds`). A subnormal product steps if its factors are not zero,
whatever its error, and that is a difference between a product that is zero and one that only
rounds to zero: `Vanishes`. Products are isotonic except there (`side_mul_bounds_iff`).
-/

set_option autoImplicit false

namespace Paving

namespace Binary64

/-- The product of two finite numbers is not zero, but it is rounded to zero. -/
structure Vanishes (a b : Binary64) : Prop where
  finite_left : a.isFinite = true
  finite_right : b.isFinite = true
  ne_zero : a.units * b.units ≠ 0
  rank_eq : (a * b).rank = 0

instance (a b : Binary64) : Decidable (a.Vanishes b) :=
  decidable_of_iff (a.isFinite = true ∧ b.isFinite = true ∧ a.units * b.units ≠ 0 ∧
      (a * b).rank = 0)
    ⟨fun h => ⟨h.1, h.2.1, h.2.2.1, h.2.2.2⟩,
      fun h => ⟨h.finite_left, h.finite_right, h.ne_zero, h.rank_eq⟩⟩

theorem lt_zero_iff {x : Binary64} (hx : x.isNaN = false) : x < zero ↔ x.rank < 0 := by
  rw [Binary64.lt_iff, rank_zero]
  exact ⟨fun h => h.2.2, fun h => ⟨hx, by decide, h⟩⟩

/-- The squares of numbers are in the order of their distances from zero. -/
theorem mul_self_units_le_iff {a b : Binary64} :
    a.units * a.units ≤ b.units * b.units ↔ a.rank.natAbs ≤ b.rank.natAbs := by
  rw [← abs_le_iff_mul_self_le, Int.abs_eq_natAbs, Int.abs_eq_natAbs, Int.ofNat_le, natAbs_units,
    natAbs_units, index_eq_natAbs_rank, index_eq_natAbs_rank, magnitudeUnits_strictMono.le_iff_le]

theorem abs_lt_minNormal_iff {x : Binary64} (hx : x.isNaN = false) :
    x.abs < minNormal ↔ (x.rank.natAbs : Int) < minNormal.rank := by
  have habs : x.abs.rank = (x.rank.natAbs : Int) := by
    rw [abs, rank_ofIndex false x.index_lt_signWeight, if_neg Bool.false_ne_true,
      index_eq_natAbs_rank]
  rw [Binary64.lt_iff, habs]
  exact ⟨fun h => h.2.2, fun h => ⟨(isNaN_abs x).trans hx, by decide, h⟩⟩

end Binary64

namespace Direction

open Binary64

/-! ## Adjusted results -/

/-- What a directed operation makes of a rounded result: an overflow is cut back, and any other
number is kept or moved to its neighbour. -/
def adjust (d : Direction) (moves : Bool) (x : Binary64) : Binary64 :=
  if x.isInfinite then d.saturate x else if moves then d.step x else x

/-- The change of the rank in one step outward. -/
def unit : Direction → Int
  | down => -1
  | up => 1

section Adjust

variable {d : Direction} {x x' : Binary64} {moves moves' : Bool}

theorem adjust_of_infinite (hx : x.isInfinite = true) : d.adjust moves x = d.saturate x := by
  rw [adjust, if_pos hx]

theorem adjust_of_finite (hx : x.isFinite = true) :
    d.adjust moves x = if moves then d.step x else x := by
  rw [adjust, not_infinite_of_finite hx, if_neg Bool.false_ne_true]

/-- The neighbour of a finite number is one rank outward. -/
theorem rank_step (hx : x.isFinite = true) : (d.step x).rank = x.rank + d.unit := by
  have hnan := not_nan_of_finite hx
  have hrank := isFinite_iff_rank.1 hx
  have hlimits := And.intro rank_negInf rank_posInf
  cases d with
  | down => exact (rank_nextDown hnan (by omega)).2
  | up => exact (rank_nextUp hnan (by omega)).2

/-- So is the largest finite number from the infinity against the direction. -/
theorem rank_saturate (hx : x.isInfinite = true) :
    (d.saturate x).rank = if x.rank = d.limit.rank then x.rank else x.rank + d.unit := by
  have hnan := not_nan_of_infinite hx
  have hrank := isInfinite_iff_rank.1 hx
  have hlimits := And.intro rank_negInf rank_posInf
  have hmax : maxFinite.rank = (infinityIndex : Int) - 1 := by decide
  have hinf : (0 : Int) < infinityIndex := by decide
  cases d with
  | down =>
    have hinner : (x == posInf) = true ↔ x.rank = posInf.rank :=
      Binary64.beq_iff.trans ⟨fun h => h.2.2, fun h => ⟨hnan, by decide, h⟩⟩
    show (if x == posInf then maxFinite else x).rank =
      if x.rank = negInf.rank then x.rank else x.rank + -1
    simp only [hinner]
    split_ifs <;> omega
  | up =>
    have hinner : (x == negInf) = true ↔ x.rank = negInf.rank :=
      Binary64.beq_iff.trans ⟨fun h => h.2.2, fun h => ⟨hnan, by decide, h⟩⟩
    have hmin := rank_neg maxFinite
    show (if x == negInf then -maxFinite else x).rank =
      if x.rank = posInf.rank then x.rank else x.rank + 1
    simp only [hinner]
    split_ifs <;> omega

/-- What is cut back or moves goes one rank outward, unless it is the infinity in the
direction. -/
theorem rank_adjust (hx : x.isNaN = false) : (d.adjust moves x).rank =
    if (x.isInfinite || moves) = true ∧ x.rank ≠ d.limit.rank then x.rank + d.unit
    else x.rank := by
  rcases finite_or_infinite hx with hfinite | hinfinite
  · have hordinary := not_infinite_of_finite hfinite
    have hlimit : x.rank ≠ d.limit.rank := by
      intro h
      rw [isInfinite_of_rank_eq_limit h] at hordinary
      cases hordinary
    rw [adjust_of_finite hfinite, hordinary, Bool.false_or]
    cases moves with
    | true => rw [if_pos rfl, if_pos ⟨rfl, hlimit⟩, rank_step hfinite]
    | false => rw [if_neg Bool.false_ne_true, if_neg fun h => Bool.false_ne_true h.1]
  · rw [adjust_of_infinite hinfinite, rank_saturate hinfinite, hinfinite, Bool.true_or]
    simp only [true_and, ne_eq, ite_not]

theorem side_add_unit (r : Int) : d.Side (r + d.unit) r := by
  cases d with
  | down => exact Int.sub_le_self r Int.one_nonneg
  | up => exact Int.le_add_of_nonneg_right Int.one_nonneg

/-- Between two ranks there is room for one step. -/
theorem side_add_unit_of_ne {m n : Int} (hside : d.Side m n) (hne : m ≠ n) :
    d.Side m (n + d.unit) := by
  cases d with
  | down => exact Int.le_sub_one_of_lt (lt_of_le_of_ne hside hne)
  | up => exact Int.add_one_le_of_lt (lt_of_le_of_ne hside hne.symm)

/-- Adjusting keeps the order of rounded results if, of two that are equal, the outer one moves
whenever the inner one does. -/
theorem side_adjust (hx : x.isNaN = false) (hx' : x'.isNaN = false)
    (hside : d.Side x.rank x'.rank)
    (hmoves : x.rank = x'.rank → moves' = true → moves = true) :
    d.Side (d.adjust moves x).rank (d.adjust moves' x').rank := by
  have houter : d.Side (d.adjust moves x).rank x.rank := by
    rw [rank_adjust hx]
    split
    · exact side_add_unit _
    · exact side_refl d _
  by_cases hinner : (x'.isInfinite || moves') = true ∧ x'.rank ≠ d.limit.rank
  · by_cases hequal : x.rank = x'.rank
    · -- The outer result goes along.
      have hfollows : (x.isInfinite || moves) = true ∧ x.rank ≠ d.limit.rank := by
        rw [Bool.or_eq_true, isInfinite_iff_rank] at hinner ⊢
        rw [hequal]
        exact ⟨hinner.1.imp_right (hmoves hequal), hinner.2⟩
      rw [rank_adjust hx, rank_adjust hx', if_pos hfollows, if_pos hinner, hequal]
      exact side_refl d _
    · rw [rank_adjust hx', if_pos hinner]
      exact houter.trans (side_add_unit_of_ne hside hequal)
  · rw [rank_adjust hx', if_neg hinner]
    exact houter.trans hside

/-- A defect on the wrong side that is large enough to be shown stays so farther out. -/
theorem shown_of_side {m n : Int} {den : Nat} (hside : d.Side m n)
    (hshown : ¬ d.Side 0 n ∧ den < 2 * n.natAbs) : ¬ d.Side 0 m ∧ den < 2 * m.natAbs := by
  cases d with
  | down =>
    simp only [Side] at hside hshown ⊢
    omega
  | up =>
    simp only [Side] at hside hshown ⊢
    omega

theorem side_sub_right {m n : Int} (hside : d.Side m n) (k : Int) : d.Side (m - k) (n - k) := by
  cases d with
  | down => exact Int.sub_le_sub_right hside k
  | up => exact Int.sub_le_sub_right hside k

end Adjust

/-! ## Products -/

section Product

variable {d : Direction} {a b a' b' : Binary64}

theorem beq_zero_iff (ha : a.isFinite = true) : (a == zero) = true ↔ a.units = 0 := by
  constructor
  · exact Rounding.units_eq_zero_of_beq_zero
  · intro h
    have hrank : a.rank = zero.rank := units_eq_iff_rank_eq.1 (h.trans units_zero.symm)
    exact Binary64.beq_iff.2 ⟨not_nan_of_finite ha, by decide, hrank⟩

/-- Whether a directed product steps: it is subnormal and its factors are not zero, or the
residual shows that it lies on the wrong side. -/
def productMoves (d : Direction) (a b : Binary64) : Bool :=
  !(a == zero) && !(b == zero) && decide ((a * b).abs < minNormal) ||
    d.wrongSide (fusedMulAdd a b (-(a * b)))

theorem not_nan_mul (ha : a.isFinite = true) (hb : b.isFinite = true) :
    (a * b).isNaN = false :=
  not_nan_of_nearest unitsPerOne_pos_nat (rank_mul ha hb)

theorem mul_eq_adjust (ha : a.isFinite = true) (hb : b.isFinite = true) :
    d.mul a b = d.adjust (d.productMoves a b) (a * b) := by
  rw [Rounding.mul_eq_getD, ha, hb, settle?, not_nan_mul ha hb, if_neg Bool.false_ne_true]
  rcases finite_or_infinite (not_nan_mul ha hb) with hfinite | hinfinite
  · rw [adjust_of_finite hfinite, not_infinite_of_finite hfinite, if_neg Bool.false_ne_true,
      productMoves]
    -- A subnormal product is settled by its step, any other one is corrected by its residual.
    cases !(a == zero) && !(b == zero) && decide ((a * b).abs < minNormal) with
    | true => rfl
    | false => rfl
  · rw [adjust_of_infinite hinfinite, hinfinite]
    rfl

/-- The same about the exact product in whole numbers. -/
theorem productMoves_iff (ha : a.isFinite = true) (hb : b.isFinite = true)
    (hp : (a * b).isFinite = true) : d.productMoves a b = true ↔
      (a.units * b.units ≠ 0 ∧ ((a * b).rank.natAbs : Int) < minNormal.rank) ∨
        (¬ d.Side 0 (a.units * b.units - (a * b).units * unitsPerOne) ∧
          unitsPerOne < 2 * (a.units * b.units - (a * b).units * unitsPerOne).natAbs) := by
  have herror : (fusedMulAdd a b (-(a * b))).rank =
      nearestRank (a.units * b.units - (a * b).units * unitsPerOne) unitsPerOne := by
    rw [rank_fusedMulAdd ha hb ((isFinite_neg _).trans hp), units_neg, Int.neg_mul,
      ← Int.sub_eq_add_neg]
  have hza := beq_zero_iff ha
  have hzb := beq_zero_iff hb
  rw [productMoves, Bool.or_eq_true, wrongSide_iff unitsPerOne_pos_nat herror, Bool.and_eq_true,
    Bool.and_eq_true, decide_eq_true_iff, abs_lt_minNormal_iff (not_nan_of_finite hp),
    Bool.not_eq_true', Bool.not_eq_true', ← Bool.not_eq_true, ← Bool.not_eq_true, hza, hzb,
    mul_ne_zero_iff]

/-- A product that is exactly zero is kept. -/
theorem rank_mul_of_eq_zero (ha : a.isFinite = true) (hb : b.isFinite = true)
    (h : a.units * b.units = 0) : (a * b).rank = 0 ∧ (d.mul a b).rank = 0 := by
  have hrank : (a * b).rank = 0 := by
    rw [rank_mul ha hb, h, nearestRank, Int.sign_zero, Int.zero_mul]
  have hfinite : (a * b).isFinite = true := by
    rw [isFinite_iff_rank, hrank]
    decide
  have hunits : (a * b).units = 0 := by
    rw [units_eq_unitsOfRank, hrank]
    rfl
  have hkept : d.productMoves a b = false := by
    rw [← Bool.not_eq_true, productMoves_iff ha hb hfinite, h, hunits, Int.zero_mul]
    rintro (⟨hne, -⟩ | ⟨hwrong, -⟩)
    · exact hne rfl
    · exact hwrong (side_refl d 0)
  refine ⟨hrank, ?_⟩
  rw [mul_eq_adjust ha hb, adjust_of_finite hfinite, hkept]
  exact hrank

/-- A product that vanishes is moved past zero. -/
theorem side_mul_of_vanishes (h : a.Vanishes b) : ¬ d.Side 0 (d.mul a b).rank := by
  have hfinite : (a * b).isFinite = true := by
    rw [isFinite_iff_rank, h.rank_eq]
    decide
  have hmoves : d.productMoves a b = true := by
    rw [productMoves_iff h.finite_left h.finite_right hfinite, h.rank_eq]
    exact .inl ⟨h.ne_zero, by decide⟩
  rw [mul_eq_adjust h.finite_left h.finite_right, adjust_of_finite hfinite, hmoves, if_pos rfl,
    rank_step hfinite, h.rank_eq]
  cases d with
  | down => decide
  | up => decide

/-- Of two products that are rounded to the same number the outer one moves whenever the inner
one does, unless only the outer one is exactly zero. -/
theorem productMoves_of_side (ha : a.isFinite = true) (hb : b.isFinite = true)
    (ha' : a'.isFinite = true) (hb' : b'.isFinite = true)
    (hside : d.Side (a.units * b.units) (a'.units * b'.units))
    (hzero : a.units * b.units = 0 → ¬ a'.Vanishes b') (hp : (a * b).isFinite = true)
    (hrank : (a * b).rank = (a' * b').rank) (hmoves : d.productMoves a' b' = true) :
    d.productMoves a b = true := by
  have hp' : (a' * b').isFinite = true := by
    rw [isFinite_iff_rank, ← hrank]
    exact isFinite_iff_rank.1 hp
  have hunits : (a * b).units = (a' * b').units := units_eq_iff_rank_eq.2 hrank
  rw [productMoves_iff ha' hb' hp'] at hmoves
  rw [productMoves_iff ha hb hp, hrank, hunits]
  rcases hmoves with ⟨hne, hsubnormal⟩ | hwrong
  · -- Both are subnormal, so the outer product moves as well unless it is zero.
    refine .inl ⟨fun h => ?_, hsubnormal⟩
    exact hzero h ⟨ha', hb', hne, hrank.symm.trans (rank_mul_of_eq_zero (d := d) ha hb h).1⟩
  · exact .inr (shown_of_side (side_sub_right hside _) hwrong)

/-- A directed product does not pass one of larger exact value on the safe side, unless it is
zero and the other one vanishes. -/
theorem side_mul_iff (ha : a.isFinite = true) (hb : b.isFinite = true) (ha' : a'.isFinite = true)
    (hb' : b'.isFinite = true) (hside : d.Side (a.units * b.units) (a'.units * b'.units)) :
    d.Side (d.mul a b).rank (d.mul a' b').rank ↔ ¬ (a.units * b.units = 0 ∧ a'.Vanishes b') := by
  constructor
  · rintro hordered ⟨hzero, hvanishes⟩
    rw [(rank_mul_of_eq_zero ha hb hzero).2] at hordered
    exact side_mul_of_vanishes hvanishes hordered
  · intro hzero
    have hranks : d.Side (a * b).rank (a' * b').rank := by
      rw [rank_mul ha hb, rank_mul ha' hb']
      exact side_nearestRank_of_side unitsPerOne_pos_nat hside
    rw [mul_eq_adjust ha hb, mul_eq_adjust ha' hb']
    rcases finite_or_infinite (not_nan_mul ha hb) with hfinite | hinfinite
    · apply side_adjust (not_nan_mul ha hb) (not_nan_mul ha' hb') hranks
      exact productMoves_of_side ha hb ha' hb' hside (not_and.1 hzero) hfinite
    · -- An overflow is cut back the same whether or not it would move.
      have hsame : d.adjust (d.productMoves a b) (a * b) = d.adjust true (a * b) := by
        rw [adjust_of_infinite hinfinite, adjust_of_infinite hinfinite]
      rw [hsame]
      exact side_adjust (not_nan_mul ha hb) (not_nan_mul ha' hb') hranks fun _ _ => rfl

end Product

/-! ## Roots -/

section Root

variable {d : Direction} {a a' : Binary64}

theorem isFinite_sqrt (ha : a.isFinite = true) (hnonneg : 0 ≤ a.rank) :
    a.sqrt.isFinite = true := by
  rcases hnonneg.lt_or_eq with hpos | hzero
  · exact (Rounding.sqrt_positive ha hpos).1
  · rw [sqrt_of_rank_eq_zero ha hzero.symm]
    exact ha

/-- The residual of a root is its defect, rounded. -/
theorem rank_rootError (ha : a.isFinite = true) (hnonneg : 0 ≤ a.rank) :
    (-fusedMulAdd a.sqrt a.sqrt (-a)).rank =
      nearestRank (a.units * unitsPerOne - a.sqrt.units * a.sqrt.units) unitsPerOne := by
  have hfinite := isFinite_sqrt ha hnonneg
  rw [rank_neg, rank_fusedMulAdd hfinite hfinite ((isFinite_neg a).trans ha), units_neg,
    ← nearestRank_neg]
  congr 1
  ring

/-- A directed root steps if the residual shows that it lies on the wrong side. -/
theorem sqrt_eq_adjust (ha : a.isFinite = true) (hnonneg : 0 ≤ a.rank) :
    d.sqrt a = d.adjust (d.wrongSide (-fusedMulAdd a.sqrt a.sqrt (-a))) a.sqrt := by
  have hfinite := isFinite_sqrt ha hnonneg
  rw [adjust_of_finite hfinite, Direction.sqrt]
  rw [hfinite, Bool.not_true, Bool.false_or, ← correct]
  split
  case isFalse => rfl
  case isTrue hzero =>
    -- The root of zero is that zero, and it has no residual.
    have ha0 : a.rank = 0 := by
      have hroot := (Binary64.beq_iff.1 hzero).2.2
      rw [rank_zero] at hroot
      rcases hnonneg.lt_or_eq with hpos | heq
      · exact absurd hroot (Rounding.sqrt_positive ha hpos).2.ne'
      · exact heq.symm
    have hunits : a.units = 0 := by
      rw [units_eq_unitsOfRank, ha0]
      rfl
    have hkept : ¬ d.wrongSide (-fusedMulAdd a.sqrt a.sqrt (-a)) = true := by
      rw [wrongSide_iff unitsPerOne_pos_nat (rank_rootError ha hnonneg),
        sqrt_of_rank_eq_zero ha ha0, hunits, Int.zero_mul, Int.mul_zero, Int.sub_zero]
      exact fun h => h.1 (side_refl d 0)
    rw [correct, if_neg hkept]

theorem side_units_of_rank (hside : d.Side a.rank a'.rank) : d.Side a.units a'.units := by
  cases d with
  | down => exact units_le_units_iff.2 hside
  | up => exact units_le_units_iff.2 hside

/-- A directed root does not pass the root of a number farther in. -/
theorem side_sqrt_of_side (ha : a.isFinite = true) (hnonneg : 0 ≤ a.rank)
    (ha' : a'.isFinite = true) (hnonneg' : 0 ≤ a'.rank) (hside : d.Side a.rank a'.rank) :
    d.Side (d.sqrt a).rank (d.sqrt a').rank := by
  have hunits := side_units_of_rank hside
  rw [sqrt_eq_adjust ha hnonneg, sqrt_eq_adjust ha' hnonneg']
  refine side_adjust (not_nan_of_finite (isFinite_sqrt ha hnonneg))
    (not_nan_of_finite (isFinite_sqrt ha' hnonneg')) ?_ ?_
  · cases d with
    | down => exact rank_sqrt_mono ha ha' hnonneg hside
    | up => exact rank_sqrt_mono ha' ha hnonneg' hside
  · intro hrank
    have hroots : a.sqrt.units = a'.sqrt.units := units_eq_iff_rank_eq.2 hrank
    have hunit : (0 : Int) ≤ unitsPerOne := Int.natCast_nonneg _
    have hradicands : d.Side (a.units * unitsPerOne) (a'.units * unitsPerOne) := by
      cases d with
      | down => exact Int.mul_le_mul_of_nonneg_right hunits hunit
      | up => exact Int.mul_le_mul_of_nonneg_right hunits hunit
    rw [wrongSide_iff unitsPerOne_pos_nat (rank_rootError ha hnonneg),
      wrongSide_iff unitsPerOne_pos_nat (rank_rootError ha' hnonneg'), hroots]
    exact shown_of_side (side_sub_right hradicands _)

end Root

/-! ## Bounds -/

section Bounds

variable {d : Direction} {a b a' b' c v w : Binary64}

/-- A bound inside of a finite one is finite. -/
theorem isFinite_of_side (ha : a.isFinite = true) (ha' : d.Bounds a' v.toReal)
    (hside : d.Side a.rank a'.rank) : a'.isFinite = true := by
  rcases ha'.finite_or_limit with hfinite | ⟨-, hlimit⟩
  · exact hfinite
  · -- The infinity in the direction is outward of a finite bound.
    have hrank := isFinite_iff_rank.1 ha
    have hlimits := And.intro rank_negInf rank_posInf
    cases d with
    | down =>
      have hle : a.rank ≤ a'.rank := hside
      have heq : a'.rank = negInf.rank := hlimit
      omega
    | up =>
      have hle : a'.rank ≤ a.rank := hside
      have heq : a'.rank = posInf.rank := hlimit
      omega

/-- The infinity in the direction is outward of all numbers. -/
theorem side_of_outward {x x' : Binary64} {r : Int} (hx : x.rank = d.limit.rank)
    (hx' : d.Outward x' r) : d.Side x.rank x'.rank := by
  have hrange := rank_bounds hx'.not_nan
  rw [rank_negInf, rank_posInf] at hrange
  exact side_of_limit hx hrange.1 hrange.2

/-- The product of a factor with a bound does not pass that with a bound farther in, unless the
outer bound is zero and the product with the inner one vanishes. -/
theorem side_mul_bounds_iff (hc : c.isFinite = true) (h0 : c.rank ≠ 0) (hv : v.isFinite = true)
    (hb : (d.along c).Bounds b v.toReal) (hb' : (d.along c).Bounds b' v.toReal)
    (hside : (d.along c).Side b.rank b'.rank) :
    d.Side (d.mul c b).rank (d.mul c b').rank ↔ ¬ (b.rank = 0 ∧ c.Vanishes b') := by
  rcases hb.finite_or_limit with hfb | ⟨hib, hrb⟩
  · have hfb' := isFinite_of_side hfb hb' hside
    have hzero : c.units * b.units = 0 ↔ b.rank = 0 := by
      rw [mul_eq_zero, or_iff_right (units_ne_zero_iff_rank.2 h0), ← not_iff_not]
      exact units_ne_zero_iff_rank
    rw [side_mul_iff hc hfb hc hfb' (side_units_mul hc (side_units_of_rank hside)), hzero]
  · refine iff_of_true ?_ fun h => rank_ne_zero_of_infinite hib h.1
    exact side_of_outward (rank_mul_infinite hc h0 hib hrb) (outward_mul hc h0 hv hb')

/-- The root of a bound does not pass that of a bound farther in. -/
theorem side_sqrt_bounds (hv : v.isFinite = true) (hv0 : 0 ≤ v.rank) (ha0 : 0 ≤ a.rank)
    (ha0' : 0 ≤ a'.rank) (ha : d.Bounds a v.toReal) (ha' : d.Bounds a' v.toReal)
    (hside : d.Side a.rank a'.rank) : d.Side (d.sqrt a).rank (d.sqrt a').rank := by
  rcases ha.finite_or_limit with hfa | ⟨hia, hra⟩
  · exact side_sqrt_of_side hfa ha0 (isFinite_of_side hfa ha' hside) ha0' hside
  · exact side_of_outward (rank_sqrt_infinite hia ha0 hra) (outward_sqrt hv hv0 ha0' ha')

/-- A sum of bounds that does not lose its error does not pass the sum of bounds farther in. -/
theorem side_add_bounds (hv : v.isFinite = true) (hw : w.isFinite = true)
    (hkept : ¬ d.LosesError a b) (ha : d.Bounds a v.toReal) (hb : d.Bounds b w.toReal)
    (ha' : d.Bounds a' v.toReal) (hb' : d.Bounds b' w.toReal) (hside : d.Side a.rank a'.rank)
    (hside' : d.Side b.rank b'.rank) : d.Side (d.add a b).rank (d.add a' b').rank := by
  by_cases hfinite : a.isFinite = true ∧ b.isFinite = true
  · obtain ⟨hfa, hfb⟩ := hfinite
    have hsum : d.Side (a.toReal + b.toReal) (a'.toReal + b'.toReal) := by
      cases d with
      | down => exact add_le_add (toReal_le_toReal_iff.2 hside) (toReal_le_toReal_iff.2 hside')
      | up => exact add_le_add (toReal_le_toReal_iff.2 hside) (toReal_le_toReal_iff.2 hside')
    -- The outer sum bounds the exact inner one, and the inner sum is its closest bound.
    exact side_add (isFinite_of_side hfa ha' hside) (isFinite_of_side hfb hb' hside')
      (((bounds_add_iff hfa hfb).2 hkept).trans hsum)
  · have hinfinite := infinite_of_not_finite ha.not_nan hb.not_nan hfinite
    exact side_of_outward (add_eq_of_infinite ha hb hinfinite) (outward_add hv hw ha' hb')

end Bounds

end Direction

end Paving
