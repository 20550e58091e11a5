import Mathlib.Analysis.Real.Sqrt
import Paving.Proofs.Binary64.Bounds
import Paving.Proofs.Binary64.TwoSum

/-!
# When a directed rounding can be trusted

A directed operation rounds to nearest and then corrects the result by the sign of
an error term. The error term is itself rounded, and in a few places it is blind:
a fused residual of at most half a unit vanishes, and the residual of a sum is lost
when its first correction overflows. `Rounding` lists the directed operations with
their operands, and `Rounding.Misled` says in whole numbers when the error term is
blind to a defect on the wrong side.

The condition is exact: on finite operands the computed bound bounds the exact
result if and only if the rounding is not misled (`bounds_bound_iff`).
-/

set_option autoImplicit false

namespace Paving

namespace Binary64

/-! ## Exact results as ratios -/

theorem toReal_add_eq_ratio (a b : Binary64) :
    a.toReal + b.toReal = ratio (a.units + b.units) 1 := by
  rw [toReal, toReal, ratio, Int.cast_add, Nat.cast_one, one_mul, add_div]

theorem toReal_mul_eq_ratio (a b : Binary64) :
    a.toReal * b.toReal = ratio (a.units * b.units) unitsPerOne := by
  rw [toReal, toReal, ratio, Int.cast_mul, div_mul_div_comm]

theorem toReal_div_eq_ratio (a : Binary64) {b : Binary64} (h0 : b.units ≠ 0) :
    a.toReal / b.toReal = ratio (b.units.sign * (a.units * unitsPerOne)) b.units.natAbs := by
  have hunit := unitsPerOne_pos.ne'
  have habs : (0 : ℝ) < ((b.units.natAbs : ℕ) : ℝ) := Nat.cast_pos.2 (Int.natAbs_pos.2 h0)
  have hb : (b.units : ℝ) ≠ 0 := Int.cast_ne_zero.2 h0
  have hsign : ((b.units.sign : Int) : ℝ) * (b.units : ℝ) = ((b.units.natAbs : ℕ) : ℝ) := by
    rw [← Int.cast_mul, Int.sign_mul_self, Int.cast_natCast]
  rw [toReal, toReal, ratio, div_div_div_cancel_right₀ hunit, Int.cast_mul, Int.cast_mul,
    Int.cast_natCast, ← mul_assoc, mul_div_mul_right _ _ hunit, div_eq_div_iff hb habs.ne']
  rw [← hsign]
  ring

end Binary64

/-! ## Directed operations -/

open Binary64

/-- A directed operation with its operands. -/
inductive Rounding where
  | sum (d : Direction) (a b : Binary64)
  | product (d : Direction) (a b : Binary64)
  | quotient (d : Direction) (a b : Binary64)
  | root (d : Direction) (a : Binary64)

namespace Rounding

/-- The side to which the operation rounds. -/
def direction : Rounding → Direction
  | sum d _ _ => d
  | product d _ _ => d
  | quotient d _ _ => d
  | root d _ => d

/-- The bound that the operation computes. -/
def bound : Rounding → Binary64
  | sum d a b => d.add a b
  | product d a b => d.mul a b
  | quotient d a b => d.div a b
  | root d a => d.sqrt a

/-- The result rounded to nearest, before it is corrected. -/
def nearest : Rounding → Binary64
  | sum _ a b => a + b
  | product _ a b => a * b
  | quotient _ a b => a / b
  | root _ a => a.sqrt

/-- The exact result. -/
noncomputable def exact : Rounding → ℝ
  | sum _ a b => a.toReal + b.toReal
  | product _ a b => a.toReal * b.toReal
  | quotient _ a b => a.toReal / b.toReal
  | root _ a => Real.sqrt a.toReal

/-- The operands are finite and the operation is defined on them. -/
def Defined : Rounding → Prop
  | sum _ a b => a.isFinite = true ∧ b.isFinite = true
  | product _ a b => a.isFinite = true ∧ b.isFinite = true
  | quotient _ a b => a.isFinite = true ∧ b.isFinite = true ∧ b.units ≠ 0
  | root _ a => a.isFinite = true ∧ 0 ≤ a.rank

/-- How far the rounded result is from the exact one, as a whole number: of units
for a sum, of units divided once more by `2^1074` for the others. -/
def defect : Rounding → Int
  | sum _ a b => a.units + b.units - (a + b).units
  | product _ a b => a.units * b.units - (a * b).units * unitsPerOne
  | quotient _ a b => b.units.sign * (a.units * unitsPerOne) - (a / b).units * b.units.natAbs
  | root _ a => a.units * unitsPerOne - a.sqrt.units * a.sqrt.units

/-- The error term does not show the defect: the first correction of a sum
overflows, or a residual of at most half a unit is rounded to zero. A subnormal
product or quotient is not corrected by its residual. -/
def Blind (r : Rounding) : Prop :=
  match r with
  | sum _ a b => (a + b - a).isInfinite = true
  | product _ a b => minNormal ≤ (a * b).abs ∧ 2 * r.defect.natAbs ≤ unitsPerOne
  | quotient _ a b => minNormal ≤ (a / b).abs ∧ 2 * r.defect.natAbs ≤ unitsPerOne
  | root _ _ => 2 * r.defect.natAbs ≤ unitsPerOne

/-- The rounded result lies on the wrong side and the error term does not show
it. -/
structure Misled (r : Rounding) : Prop where
  defined : r.Defined
  finite : r.nearest.isFinite = true
  blind : r.Blind
  wrong : ¬ r.direction.Side 0 r.defect

instance (r : Rounding) : Decidable r.Defined :=
  match r with
  | sum _ a b => inferInstanceAs (Decidable (a.isFinite = true ∧ b.isFinite = true))
  | product _ a b => inferInstanceAs (Decidable (a.isFinite = true ∧ b.isFinite = true))
  | quotient _ a b =>
    inferInstanceAs (Decidable (a.isFinite = true ∧ b.isFinite = true ∧ b.units ≠ 0))
  | root _ a => inferInstanceAs (Decidable (a.isFinite = true ∧ 0 ≤ a.rank))

instance (r : Rounding) : Decidable r.Blind :=
  match r with
  | sum _ a b => inferInstanceAs (Decidable ((a + b - a).isInfinite = true))
  | product d a b => inferInstanceAs (Decidable
      (minNormal ≤ (a * b).abs ∧ 2 * (product d a b).defect.natAbs ≤ unitsPerOne))
  | quotient d a b => inferInstanceAs (Decidable
      (minNormal ≤ (a / b).abs ∧ 2 * (quotient d a b).defect.natAbs ≤ unitsPerOne))
  | root d a => inferInstanceAs (Decidable (2 * (root d a).defect.natAbs ≤ unitsPerOne))

instance (r : Rounding) : Decidable r.Misled :=
  decidable_of_iff (r.Defined ∧ r.nearest.isFinite = true ∧ r.Blind ∧ ¬ r.direction.Side 0 r.defect)
    ⟨fun h => ⟨h.1, h.2.1, h.2.2.1, h.2.2.2⟩, fun h => ⟨h.defined, h.finite, h.blind, h.wrong⟩⟩

section Exact

variable {d : Direction} {a b : Binary64}

theorem not_misled_of_infinite {r : Rounding} (h : r.nearest.isInfinite = true) : ¬ r.Misled := by
  intro hmisled
  rw [not_infinite_of_finite hmisled.finite] at h
  exact absurd h Bool.false_ne_true

/-- The directed sum bounds the exact sum unless it is misled. -/
theorem bounds_sum_iff (ha : a.isFinite = true) (hb : b.isFinite = true) :
    d.Bounds (d.add a b) (a.toReal + b.toReal) ↔ ¬ (sum d a b).Misled := by
  have hr := rank_add ha hb
  have hnan := not_nan_of_nearest Nat.one_pos hr
  rw [toReal_add_eq_ratio]
  rw [Direction.add]
  rcases finite_or_infinite hnan with hfinite | hinfinite
  · rw [not_infinite_of_finite hfinite, if_neg Bool.false_ne_true]
    -- The sum is finite: it is corrected by the recovered error.
    have hx : d.Bounds (a + b) (ratio (a.units + b.units) 1) ↔
        d.Side 0 (a.units + b.units - (a + b).units) := by
      rw [bounds_ratio_iff Nat.one_pos hfinite, Int.natCast_one, Int.mul_one]
    have hstep := bounds_step_ratio (d := d) Nat.one_pos hfinite hr
    have hcorrection := not_nan_of_nearest Nat.one_pos (rank_sub hfinite ha)
    have hmisled : (sum d a b).Misled ↔ (a + b - a).isInfinite = true ∧
        ¬ d.Side 0 (a.units + b.units - (a + b).units) :=
      ⟨fun h => ⟨h.blind, h.wrong⟩, fun h => ⟨⟨ha, hb⟩, hfinite, h.1, h.2⟩⟩
    rw [hmisled]
    rcases finite_or_infinite hcorrection with hseen | hlost
    · -- The error is exact, so a defect is never missed.
      have hrank := rank_twoSumError ha hb hfinite hseen
      rw [bounds_correct_iff Nat.one_pos hrank hstep hx, not_infinite_of_finite hseen]
      simp only [Bool.false_eq_true, false_and, not_false_eq_true, iff_true, not_and, not_not]
      intro hsmall
      have hzero : a.units + b.units - (a + b).units = 0 := by omega
      rw [hzero]
      exact Direction.side_refl d 0
    · -- The error is not a number, and the sum stays as it was rounded.
      have hkept : d.wrongSide (twoSumError a b (a + b)) = false :=
        Direction.wrongSide_nan (isNaN_twoSumError ha hb hfinite hlost)
      rw [Direction.correct, hkept, if_neg Bool.false_ne_true, hx, hlost]
      simp only [true_and, not_not]
  · rw [hinfinite, if_pos rfl, ha, hb]
    simp only [not_misled_of_infinite (r := sum d a b) hinfinite, not_false_eq_true, iff_true]
    exact bounds_saturate Nat.one_pos hinfinite hr

theorem mul_eq_getD (d : Direction) (a b : Binary64) : d.mul a b =
    (d.settle? (a * b) (a.isFinite && b.isFinite) (!(a == zero) && !(b == zero))).getD
      (d.correct (a * b) (fusedMulAdd a b (-(a * b)))) := by
  rw [Direction.mul]
  cases d.settle? (a * b) (a.isFinite && b.isFinite) (!(a == zero) && !(b == zero)) with
  | none => rfl
  | some bound => rfl

theorem units_eq_zero_of_beq_zero {x : Binary64} (h : (x == zero) = true) : x.units = 0 := by
  rw [units_eq_unitsOfRank, (Binary64.beq_iff.1 h).2.2, rank_zero]
  rfl

/-- The directed product bounds the exact product unless it is misled. -/
theorem bounds_product_iff (ha : a.isFinite = true) (hb : b.isFinite = true) :
    d.Bounds (d.mul a b) (a.toReal * b.toReal) ↔ ¬ (product d a b).Misled := by
  have hmisled : (product d a b).Misled ↔ (a * b).isFinite = true ∧
      (minNormal ≤ (a * b).abs ∧ 2 * (product d a b).defect.natAbs ≤ unitsPerOne) ∧
      ¬ d.Side 0 (product d a b).defect :=
    ⟨fun h => ⟨h.finite, h.blind, h.wrong⟩, fun h => ⟨⟨ha, hb⟩, h.1, h.2.1, h.2.2⟩⟩
  rw [hmisled, toReal_mul_eq_ratio, mul_eq_getD, ha, hb]
  refine bounds_settled_iff unitsPerOne_pos_nat unitsPerOne_pos_nat (rank_mul ha hb) ?_ ?_
  · intro hfinite
    rw [rank_fusedMulAdd ha hb ((isFinite_neg _).trans hfinite), units_neg, Int.neg_mul,
      ← Int.sub_eq_add_neg]
  · intro h
    rw [Bool.and_eq_false_iff, Bool.not_eq_false', Bool.not_eq_false'] at h
    rcases h with h | h
    · rw [units_eq_zero_of_beq_zero h, Int.zero_mul]
    · rw [units_eq_zero_of_beq_zero h, Int.mul_zero]

theorem div_eq_getD (d : Direction) {a b : Binary64} (ha : a.isFinite = true)
    (hb : b.isFinite = true) : d.div a b =
      (d.settle? (a / b) true (!(a == zero))).getD
        (d.correct (a / b) (quotientError a b (a / b))) := by
  rw [Direction.div]
  rw [ha, hb, Bool.and_self]
  cases d.settle? (a / b) true (!(a == zero)) with
  | none => rfl
  | some bound => rfl

/-- The residual of a quotient is its defect, rounded. -/
theorem rank_quotientError {q : Binary64} (ha : a.isFinite = true) (hb : b.isFinite = true)
    (hq : q.isFinite = true) (h0 : b.units ≠ 0) : (quotientError a b q).rank =
      nearestRank (b.units.sign * (a.units * unitsPerOne) - q.units * b.units.natAbs)
        unitsPerOne := by
  have hfused := rank_fusedMulAdd hq hb ((isFinite_neg a).trans ha)
  rw [units_neg] at hfused
  have hrank := units_pos_iff (x := b)
  rw [quotientError]
  by_cases hpos : 0 < b.units
  · have hlt : zero < b := ⟨by decide, not_nan_of_finite hb, by rw [rank_zero]; exact hrank.1 hpos⟩
    rw [if_pos hlt, rank_neg, hfused, ← nearestRank_neg, Int.sign_eq_one_of_pos hpos]
    congr 1
    rw [Int.natAbs_of_nonneg hpos.le]
    ring
  · have hlt : ¬ zero < b := by
      rintro ⟨-, -, h⟩
      rw [rank_zero] at h
      exact hpos (hrank.2 h)
    have hneg : b.units < 0 := by omega
    rw [if_neg hlt, rank_neg, rank_neg, hfused, Int.neg_neg, Int.sign_eq_neg_one_of_neg hneg]
    congr 1
    rw [Int.ofNat_natAbs_of_nonpos hneg.le]
    ring

/-- The directed quotient bounds the exact quotient unless it is misled. -/
theorem bounds_quotient_iff (ha : a.isFinite = true) (hb : b.isFinite = true)
    (h0 : b.units ≠ 0) :
    d.Bounds (d.div a b) (a.toReal / b.toReal) ↔ ¬ (quotient d a b).Misled := by
  have hmisled : (quotient d a b).Misled ↔ (a / b).isFinite = true ∧
      (minNormal ≤ (a / b).abs ∧ 2 * (quotient d a b).defect.natAbs ≤ unitsPerOne) ∧
      ¬ d.Side 0 (quotient d a b).defect :=
    ⟨fun h => ⟨h.finite, h.blind, h.wrong⟩, fun h => ⟨⟨ha, hb, h0⟩, h.1, h.2.1, h.2.2⟩⟩
  rw [hmisled, toReal_div_eq_ratio a h0, div_eq_getD d ha hb]
  refine bounds_settled_iff (Int.natAbs_pos.2 h0) unitsPerOne_pos_nat (rank_div ha hb h0) ?_ ?_
  · intro hfinite
    exact rank_quotientError ha hb hfinite h0
  · intro h
    rw [Bool.not_eq_false'] at h
    rw [units_eq_zero_of_beq_zero h, Int.zero_mul, Int.mul_zero]

/-- The half units that stand for a root lie next to it. -/
theorem halvesOfRoot_between {n : Nat} {low high : Int} (hlow : low * 2 < halvesOfRoot n)
    (hhigh : (halvesOfRoot n : Int) < high * 2) :
    (low : ℝ) ≤ Real.sqrt n ∧ Real.sqrt n ≤ (high : ℝ) := by
  -- Two half units are one unit, so the neighbours lie beyond the integer root.
  have hle : low ≤ (Nat.sqrt n : Int) := by
    rw [halvesOfRoot] at hlow
    split at hlow <;> omega
  have hleR : (low : ℝ) ≤ (Nat.sqrt n : ℝ) := by exact_mod_cast hle
  refine ⟨le_trans hleR Real.nat_sqrt_le_real_sqrt, ?_⟩
  rw [halvesOfRoot] at hhigh
  split at hhigh
  case isTrue hexact =>
    have hge : (Nat.sqrt n : Int) ≤ high := by omega
    have hroot : Real.sqrt n = (Nat.sqrt n : ℝ) := by
      have hcast : (n : ℝ) = (Nat.sqrt n : ℝ) * (Nat.sqrt n : ℝ) := by exact_mod_cast hexact.symm
      rw [hcast, Real.sqrt_mul_self (Nat.cast_nonneg _)]
    rw [hroot]
    exact_mod_cast hge
  case isFalse =>
    have hge : (Nat.sqrt n : Int) + 1 ≤ high := by omega
    have hgeR : (Nat.sqrt n : ℝ) + 1 ≤ (high : ℝ) := by exact_mod_cast hge
    exact le_trans Real.real_sqrt_le_nat_sqrt_succ hgeR

/-- The root in units is the root of a whole number. -/
theorem sqrt_toReal_mul_unitsPerOne {a : Binary64} (hnonneg : 0 ≤ a.units) :
    Real.sqrt a.toReal * unitsPerOne = Real.sqrt ((a.units.natAbs * unitsPerOne : ℕ) : ℝ) := by
  have hunit := unitsPerOne_pos
  have habs : ((a.units.natAbs : ℕ) : ℝ) = (a.units : ℝ) := by
    rw [← Int.cast_natCast, Int.natAbs_of_nonneg hnonneg]
  have hscaled : ((a.units.natAbs * unitsPerOne : ℕ) : ℝ) =
      a.toReal * ((unitsPerOne : ℝ) * (unitsPerOne : ℝ)) := by
    rw [Nat.cast_mul, habs, toReal, ← mul_assoc, div_mul_cancel₀ _ hunit.ne']
  rw [hscaled, Real.sqrt_mul' _ (mul_pos hunit hunit).le, Real.sqrt_mul_self hunit.le]

section Root

variable (ha : a.isFinite = true) (hpos : 0 < a.rank)

include hpos in
theorem four_le_radicand : 4 ≤ a.units.natAbs * unitsPerOne := by
  have hunits := units_pos_iff.2 hpos
  have hfour : 4 ≤ unitsPerOne := by decide +kernel
  exact Nat.le_trans hfour (Nat.le_mul_of_pos_left _ (by omega))

include ha hpos in
/-- The root of a positive number is positive and finite. -/
theorem sqrt_positive : a.sqrt.isFinite = true ∧ 0 < a.sqrt.rank := by
  have hr := rank_sqrt ha hpos
  -- The least radicand has a root of many units, and the largest one a root far below it.
  have hroot : 2 ≤ Nat.sqrt (a.units.natAbs * unitsPerOne) :=
    Nat.le_sqrt.2 (four_le_radicand hpos)
  have hlarge : 2 * Nat.sqrt (a.units.natAbs * unitsPerOne) ≤
      halvesOfRoot (a.units.natAbs * unitsPerOne) ∧
      halvesOfRoot (a.units.natAbs * unitsPerOne) ≤
        2 * Nat.sqrt (a.units.natAbs * unitsPerOne) + 1 := by
    rw [halvesOfRoot]
    split <;> omega
  refine ⟨isFinite_of_natAbs_le Nat.two_pos hr ?_, ?_⟩
  · rw [Int.natAbs_natCast]
    -- The root is below the number as soon as that exceeds one.
    have hle : Nat.sqrt (a.units.natAbs * unitsPerOne) < maxUnits := by
      rw [Nat.sqrt_lt]
      have hunit : unitsPerOne < maxUnits := by decide +kernel
      exact Nat.mul_lt_mul_of_le_of_lt (natAbs_units_le_maxUnits ha) hunit
        (Nat.zero_lt_of_lt hunit)
    omega
  · rw [hr, nearestRank_pos_iff _ Nat.two_pos]
    omega

include ha hpos in
theorem bounds_sqrt_step : d.Bounds (d.step a.sqrt) (Real.sqrt a.toReal) := by
  obtain ⟨hfinite, hrank⟩ := sqrt_positive ha hpos
  have hr := rank_sqrt ha hpos
  have hbounds := isFinite_iff_rank.1 hfinite
  rw [hr] at hbounds
  have hlow := unitsOfRank_pred_lt (halvesOfRoot (a.units.natAbs * unitsPerOne) : Int) Nat.two_pos
    (by omega)
  have hhigh := lt_unitsOfRank_succ (halvesOfRoot (a.units.natAbs * unitsPerOne) : Int) Nat.two_pos
    (by omega)
  rw [← hr] at hlow hhigh
  obtain ⟨hl, hh⟩ := halvesOfRoot_between hlow hhigh
  rw [← sqrt_toReal_mul_unitsPerOne (units_pos_iff.2 hpos).le] at hl hh
  exact bounds_step_of_between hfinite hl hh

include ha hpos in
theorem bounds_sqrt_iff_side :
    d.Bounds a.sqrt (Real.sqrt a.toReal) ↔ d.Side 0 (root d a).defect := by
  obtain ⟨hfinite, hrank⟩ := sqrt_positive ha hpos
  have hunit := unitsPerOne_pos
  have hroot : (0 : ℝ) ≤ a.sqrt.toReal :=
    div_nonneg (Int.cast_nonneg (units_pos_iff.2 hrank).le) hunit.le
  have hsquare : a.sqrt.toReal ^ 2 =
      ((a.sqrt.units * a.sqrt.units : Int) : ℝ) / ((unitsPerOne : ℝ) * unitsPerOne) := by
    rw [toReal, div_pow, Int.cast_mul, sq, sq]
  have hradicand : a.toReal =
      ((a.units * unitsPerOne : Int) : ℝ) / ((unitsPerOne : ℝ) * unitsPerOne) := by
    rw [toReal, Int.cast_mul, Int.cast_natCast, mul_div_mul_right _ _ hunit.ne']
  have hnonneg : (0 : ℝ) ≤ a.toReal :=
    div_nonneg (Int.cast_nonneg (units_pos_iff.2 hpos).le) hunit.le
  rw [Direction.bounds_iff_side hfinite]
  cases d with
  | down =>
    simp only [Direction.Side, defect]
    rw [Real.le_sqrt hroot hnonneg, hsquare, hradicand,
      div_le_div_iff_of_pos_right (mul_pos hunit hunit), Int.cast_le, Int.sub_nonneg]
  | up =>
    simp only [Direction.Side, defect]
    rw [Real.sqrt_le_left hroot, hsquare, hradicand,
      div_le_div_iff_of_pos_right (mul_pos hunit hunit), Int.cast_le, sub_nonpos]

end Root

/-- The directed root bounds the exact root unless it is misled. -/
theorem bounds_root_iff (ha : a.isFinite = true) (hnonneg : 0 ≤ a.rank) :
    d.Bounds (d.sqrt a) (Real.sqrt a.toReal) ↔ ¬ (root d a).Misled := by
  rcases hnonneg.lt_or_eq with hpos | hzero
  · obtain ⟨hfinite, hrank⟩ := sqrt_positive ha hpos
    -- A positive number has a positive root, which is corrected by the fused residual.
    have hne : (a.sqrt == zero) = false := by
      apply beq_eq_false_of_rank_ne
      rw [rank_zero]
      omega
    have herror : (-fusedMulAdd a.sqrt a.sqrt (-a)).rank =
        nearestRank (root d a).defect unitsPerOne := by
      rw [rank_neg, rank_fusedMulAdd hfinite hfinite ((isFinite_neg a).trans ha), units_neg,
        ← nearestRank_neg]
      congr 1
      simp only [defect]
      ring
    have hmisled : (root d a).Misled ↔ 2 * (root d a).defect.natAbs ≤ unitsPerOne ∧
        ¬ d.Side 0 (root d a).defect :=
      ⟨fun h => ⟨h.blind, h.wrong⟩, fun h => ⟨⟨ha, hnonneg⟩, hfinite, h.1, h.2⟩⟩
    rw [Direction.sqrt]
    rw [hmisled, hfinite, hne, Bool.not_true, Bool.or_self, if_neg Bool.false_ne_true]
    exact bounds_correct_iff unitsPerOne_pos_nat herror (bounds_sqrt_step ha hpos)
      (bounds_sqrt_iff_side ha hpos)
  · -- The root of a zero is that zero.
    have hindex : a.index = 0 := by
      rw [index_eq_natAbs_rank, ← hzero]
      rfl
    have hsqrt : a.sqrt = a := sqrt_of_index_eq_zero ha hindex
    have hunits : a.units = 0 := by
      rw [units_eq_unitsOfRank, ← hzero]
      rfl
    have hself : (a == zero) = true :=
      Binary64.beq_iff.2 ⟨not_nan_of_finite ha, by decide, hzero.symm.trans rank_zero.symm⟩
    have hreal : a.toReal = 0 := by
      rw [toReal, hunits, Int.cast_zero, zero_div]
    rw [Direction.sqrt]
    rw [hsqrt, hself, Bool.or_true, if_pos rfl]
    apply iff_of_true
    · rw [Direction.bounds_iff_side ha, hreal, Real.sqrt_zero]
      cases d with
      | down => exact le_refl (0 : ℝ)
      | up => exact le_refl (0 : ℝ)
    · intro hmisled
      apply hmisled.wrong
      simp only [defect, hsqrt, hunits, Int.zero_mul, Int.sub_self]
      exact Direction.side_refl d 0

/-- On finite operands a directed operation bounds its exact result if and only if
it is not misled. -/
theorem bounds_bound_iff {r : Rounding} (h : r.Defined) :
    r.direction.Bounds r.bound r.exact ↔ ¬ r.Misled := by
  cases r with
  | sum d a b => exact bounds_sum_iff h.1 h.2
  | product d a b => exact bounds_product_iff h.1 h.2
  | quotient d a b => exact bounds_quotient_iff h.1 h.2.1 h.2.2
  | root d a => exact bounds_root_iff h.1 h.2

end Exact

end Rounding

end Paving
