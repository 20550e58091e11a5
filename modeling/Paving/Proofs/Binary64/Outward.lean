import Paving.Proofs.Binary64.Halfway
import Paving.Proofs.Binary64.Tightness

/-!
# Directed results and results rounded to nearest

A directed operation starts from the result rounded to nearest, and whatever its error term
says, it only ever moves in its own direction: `Outward d x r` says that the number `x` has not
passed the rank `r` and is not the infinity on the other side. Nothing is asked of the error
terms here, so this also holds of operations that miss a defect.

Rounding to nearest keeps the order of exact results (`nearestRank_mono`). So bounds of numbers
turn into a bound of the rounded sum, product or root of these numbers (`outward_add`,
`outward_mul`, `outward_mul_self`, `outward_sqrt`), and a lower and an upper bound that are
computed around the same numbers never cross.
-/

set_option autoImplicit false

namespace Paving

namespace Binary64

/-! ## Rounding keeps the order -/

theorem natAbs_nearestRank_le (num : Int) {den : Nat} (hden : 0 < den) :
    (nearestRank num den).natAbs ≤ infinityIndex := by
  rw [natAbs_nearestRank num hden]
  exact nearestIndex_le _ _

theorem nearestRank_mono {num num' : Int} {den : Nat} (hden : 0 < den) (h : num ≤ num') :
    nearestRank num den ≤ nearestRank num' den := by
  by_contra hlt
  have hrange := natAbs_nearestRank_le num hden
  have hrange' := natAbs_nearestRank_le num' hden
  -- The larger ratio is not beyond the halfway point above its number, the smaller one not
  -- before the halfway point below its own, and that is the later point of the two.
  have hbefore : 2 * num' ≤
      (unitsOfRank (nearestRank num' den) + unitsOfRank (nearestRank num' den + 1)) * den := by
    by_contra hbeyond
    have := lt_nearestRank_of_halfway_lt hden (by omega) (Int.not_le.1 hbeyond)
    omega
  have hbeyond :
      (unitsOfRank (nearestRank num den - 1) + unitsOfRank (nearestRank num den)) * den ≤
        2 * num := by
    by_contra hbefore
    have := nearestRank_lt_of_lt_halfway hden (by omega) (Int.not_le.1 hbefore)
    omega
  have hpoints : unitsOfRank (nearestRank num' den) + unitsOfRank (nearestRank num' den + 1) ≤
      unitsOfRank (nearestRank num den - 1) + unitsOfRank (nearestRank num den) :=
    Int.add_le_add (unitsOfRank_strictMono.monotone (by omega))
      (unitsOfRank_strictMono.monotone (by omega))
  have hscaled := Int.mul_le_mul_of_nonneg_right hpoints (Int.natCast_nonneg den)
  have heq : num = num' := by omega
  rw [heq] at hlt
  exact hlt (Int.le_refl _)

theorem halvesOfRoot_mono {m n : Nat} (h : m ≤ n) : halvesOfRoot m ≤ halvesOfRoot n := by
  have hroots := Nat.sqrt_le_sqrt h
  have hsquare := Nat.sqrt_le m
  rw [halvesOfRoot, halvesOfRoot]
  by_cases heq : Nat.sqrt m = Nat.sqrt n
  · -- Between two numbers with the same root only the smaller one can be its square.
    rw [heq] at hsquare ⊢
    split
    · split <;> omega
    · rw [if_neg (by omega)]
  · split
    · split <;> omega
    · split <;> omega

theorem sqrt_of_rank_eq_zero {x : Binary64} (hx : x.isFinite = true) (hzero : x.rank = 0) :
    x.sqrt = x := by
  apply sqrt_of_index_eq_zero hx
  rw [index_eq_natAbs_rank, hzero]
  rfl

theorem rank_sqrt_of_nonneg {x : Binary64} (hx : x.isFinite = true) (hnonneg : 0 ≤ x.rank) :
    x.sqrt.rank = nearestRank (halvesOfRoot (x.units.natAbs * unitsPerOne) : Int) 2 := by
  rcases hnonneg.lt_or_eq with hpos | hzero
  · exact rank_sqrt hx hpos
  · have hunits : x.units = 0 := by
      rw [units_eq_unitsOfRank, ← hzero]
      rfl
    rw [sqrt_of_rank_eq_zero hx hzero.symm, ← hzero, hunits, Int.natAbs_zero, Nat.zero_mul]
    rfl

theorem rank_sqrt_mono {x y : Binary64} (hx : x.isFinite = true) (hy : y.isFinite = true)
    (hnonneg : 0 ≤ x.rank) (h : x.rank ≤ y.rank) : x.sqrt.rank ≤ y.sqrt.rank := by
  have hx0 : 0 ≤ x.units := by
    rw [← units_zero, units_le_units_iff, rank_zero]
    exact hnonneg
  have hunits : x.units ≤ y.units := units_le_units_iff.2 h
  rw [rank_sqrt_of_nonneg hx hnonneg, rank_sqrt_of_nonneg hy (by omega)]
  apply nearestRank_mono Nat.two_pos
  have hle : x.units.natAbs * unitsPerOne ≤ y.units.natAbs * unitsPerOne :=
    Nat.mul_le_mul_right _ (by omega)
  exact_mod_cast halvesOfRoot_mono hle

end Binary64

namespace Direction

open Binary64

/-! ## Outward of a rank -/

/-- The number has not passed the rank, seen from its own side, and it is not the infinity on
the other side. -/
structure Outward (d : Direction) (x : Binary64) (r : Int) : Prop where
  not_nan : x.isNaN = false
  side : d.Side x.rank r
  ne_limit : x.rank ≠ d.opposite.limit.rank

section Outward

variable {d : Direction} {x : Binary64} {r r' : Int}

theorem Side.trans {i j k : Int} (h : d.Side i j) (h' : d.Side j k) : d.Side i k := by
  cases d with
  | down => exact Int.le_trans h h'
  | up => exact Int.le_trans h' h

theorem Outward.trans (h : d.Outward x r) (hside : d.Side r r') : d.Outward x r' :=
  ⟨h.not_nan, h.side.trans hside, h.ne_limit⟩

/-- The infinity in the direction is outward of everything. -/
theorem outward_of_limit (h : x.rank = d.limit.rank) (hr : r.natAbs ≤ infinityIndex) :
    d.Outward x r := by
  refine ⟨not_nan_of_infinite (isInfinite_of_rank_eq_limit h), ?_, ?_⟩
  · exact side_of_limit h (by omega) (by omega)
  · rw [h]
    cases d with
    | down => decide
    | up => decide

theorem outward_rank (hx : x.isFinite = true) : d.Outward x x.rank := by
  refine ⟨not_nan_of_finite hx, side_refl d _, ?_⟩
  intro h
  have hinfinite : x.isInfinite = true := isInfinite_of_rank_eq_limit h
  rw [not_infinite_of_finite hx] at hinfinite
  cases hinfinite

theorem outward_step (hx : x.isFinite = true) : d.Outward (d.step x) x.rank := by
  have hnan := not_nan_of_finite hx
  have hrank := isFinite_iff_rank.1 hx
  have hlimits := And.intro rank_negInf rank_posInf
  cases d with
  | down =>
    obtain ⟨hstep, hprev⟩ := rank_nextDown hnan (by omega)
    have hne : x.nextDown.rank ≠ posInf.rank := by omega
    exact ⟨hstep, show x.nextDown.rank ≤ x.rank by omega, hne⟩
  | up =>
    obtain ⟨hstep, hnext⟩ := rank_nextUp hnan (by omega)
    have hne : x.nextUp.rank ≠ negInf.rank := by omega
    exact ⟨hstep, show x.rank ≤ x.nextUp.rank by omega, hne⟩

theorem outward_correct (hx : x.isFinite = true) (error : Binary64) :
    d.Outward (d.correct x error) x.rank := by
  rw [correct]
  split
  · exact outward_step hx
  · exact outward_rank hx

theorem outward_saturate (hx : x.isInfinite = true) : d.Outward (d.saturate x) x.rank := by
  have hnan := not_nan_of_infinite hx
  have hrange := rank_bounds hnan
  have hlimits := And.intro rank_negInf rank_posInf
  have hmax : maxFinite.rank = (infinityIndex : Int) - 1 := by decide
  have hinf : (0 : Int) < infinityIndex := by decide
  cases d with
  | down =>
    show down.Outward (if x == posInf then maxFinite else x) x.rank
    split
    case isTrue h =>
      have hrank := (Binary64.beq_iff.1 h).2.2
      have hne : maxFinite.rank ≠ posInf.rank := by omega
      exact ⟨by decide, show maxFinite.rank ≤ x.rank by omega, hne⟩
    case isFalse h =>
      refine ⟨hnan, side_refl down _, fun heq => h ?_⟩
      exact Binary64.beq_iff.2 ⟨hnan, by decide, heq⟩
  | up =>
    show up.Outward (if x == negInf then -maxFinite else x) x.rank
    split
    case isTrue h =>
      have hrank := (Binary64.beq_iff.1 h).2.2
      have hneg := rank_neg maxFinite
      have hne : (-maxFinite).rank ≠ negInf.rank := by omega
      exact ⟨by decide, show x.rank ≤ (-maxFinite).rank by omega, hne⟩
    case isFalse h =>
      refine ⟨hnan, side_refl up _, fun heq => h ?_⟩
      exact Binary64.beq_iff.2 ⟨hnan, by decide, heq⟩

/-- A product or quotient of finite numbers is settled or corrected outward. -/
theorem outward_settled (hx : x.isNaN = false) (nonzero : Bool) (error : Binary64) :
    d.Outward ((d.settle? x true nonzero).getD (d.correct x error)) x.rank := by
  rw [settle?, hx, if_neg Bool.false_ne_true]
  rcases finite_or_infinite hx with hfinite | hinfinite
  · rw [not_infinite_of_finite hfinite, if_neg Bool.false_ne_true]
    split
    · exact outward_step hfinite
    · exact outward_correct hfinite error
  · rw [hinfinite, if_pos rfl, if_pos rfl]
    exact outward_saturate hinfinite

end Outward

/-! ## Directed operations -/

section Operations

variable {d : Direction} {a b c v w : Binary64}

theorem side_units (ha : a.isFinite = true) (h : d.Bounds a v.toReal) :
    d.Side a.units v.units := by
  rw [bounds_iff_side ha] at h
  cases d with
  | down => exact units_le_units_iff.2 (toReal_le_toReal_iff.1 h)
  | up => exact units_le_units_iff.2 (toReal_le_toReal_iff.1 h)

theorem side_nearestRank_of_side {m n : Int} {den : Nat} (hden : 0 < den) (h : d.Side m n) :
    d.Side (nearestRank m den) (nearestRank n den) := by
  cases d with
  | down => exact nearestRank_mono hden h
  | up => exact nearestRank_mono hden h

/-- Bounds of two numbers give a bound of their rounded sum. -/
theorem outward_add (hv : v.isFinite = true) (hw : w.isFinite = true)
    (ha : d.Bounds a v.toReal) (hb : d.Bounds b w.toReal) :
    d.Outward (d.add a b) (v + w).rank := by
  rw [rank_add hv hw]
  by_cases hfinite : a.isFinite = true ∧ b.isFinite = true
  · obtain ⟨hfa, hfb⟩ := hfinite
    have hr := rank_add hfa hfb
    have hsum : d.Side (a.units + b.units) (v.units + w.units) := by
      have hsa := side_units hfa ha
      have hsb := side_units hfb hb
      cases d with
      | down => exact Int.add_le_add hsa hsb
      | up => exact Int.add_le_add hsa hsb
    have hnearest : d.Outward (d.add a b) (a + b).rank := by
      rw [Direction.add]
      rcases finite_or_infinite (not_nan_of_nearest Nat.one_pos hr) with hs | hs
      · rw [not_infinite_of_finite hs, if_neg Bool.false_ne_true]
        exact outward_correct hs _
      · rw [hs, if_pos rfl, hfa, hfb, Bool.and_true, if_pos rfl]
        exact outward_saturate hs
    rw [hr] at hnearest
    exact hnearest.trans (side_nearestRank_of_side Nat.one_pos hsum)
  · -- An infinite bound carries the sum to the infinity on the safe side.
    have hinfinite := infinite_of_not_finite ha.not_nan hb.not_nan hfinite
    exact outward_of_limit (add_eq_of_infinite ha hb hinfinite)
      (natAbs_nearestRank_le _ Nat.one_pos)

theorem outward_mul_nearest (ha : a.isFinite = true) (hb : b.isFinite = true) :
    d.Outward (d.mul a b) (nearestRank (a.units * b.units) unitsPerOne) := by
  rw [Rounding.mul_eq_getD, ha, hb, ← rank_mul ha hb]
  exact outward_settled (not_nan_of_nearest unitsPerOne_pos_nat (rank_mul ha hb)) _ _

/-- A positive factor keeps the order of whole numbers, and a negative one turns it. -/
theorem side_units_mul (hc : c.isFinite = true) {m n : Int} (hside : (d.along c).Side m n) :
    d.Side (c.units * m) (c.units * n) := by
  by_cases hpos : zero < c
  · have hunits := units_pos_iff.2 ((zero_lt_iff (not_nan_of_finite hc)).1 hpos)
    rw [along, if_pos hpos] at hside
    cases d with
    | down => exact Int.mul_le_mul_of_nonneg_left hside hunits.le
    | up => exact Int.mul_le_mul_of_nonneg_left hside hunits.le
  · have hunits : c.units ≤ 0 := by
      rw [zero_lt_iff (not_nan_of_finite hc), ← units_pos_iff] at hpos
      omega
    rw [along, if_neg hpos] at hside
    cases d with
    | down => exact Int.mul_le_mul_of_nonpos_left hunits hside
    | up => exact Int.mul_le_mul_of_nonpos_left hunits hside

/-- A bound of a number gives a bound of its rounded product with a factor. -/
theorem outward_mul (hc : c.isFinite = true) (h0 : c.rank ≠ 0) (hv : v.isFinite = true)
    (ha : (d.along c).Bounds a v.toReal) : d.Outward (d.mul c a) (c * v).rank := by
  rw [rank_mul hc hv]
  rcases ha.finite_or_limit with hfa | ⟨hia, hra⟩
  · refine (outward_mul_nearest hc hfa).trans (side_nearestRank_of_side unitsPerOne_pos_nat ?_)
    exact side_units_mul hc (side_units hfa ha)
  · exact outward_of_limit (rank_mul_infinite hc h0 hia hra)
      (natAbs_nearestRank_le _ unitsPerOne_pos_nat)

/-- The square of a number on the safe side gives a bound of the rounded square. -/
theorem outward_mul_self (ha : a.isFinite = true) (hv : v.isFinite = true)
    (hside : d.Side (a.units * a.units) (v.units * v.units)) :
    d.Outward (d.mul a a) (v * v).rank := by
  rw [rank_mul hv hv]
  exact (outward_mul_nearest ha ha).trans (side_nearestRank_of_side unitsPerOne_pos_nat hside)

/-- The root of a finite number is corrected outward. -/
theorem outward_sqrt_nearest (ha : a.isFinite = true) (hnonneg : 0 ≤ a.rank) :
    d.Outward (d.sqrt a) a.sqrt.rank := by
  have hfinite : a.sqrt.isFinite = true := by
    rcases hnonneg.lt_or_eq with hpos | hzero
    · exact (Rounding.sqrt_positive ha hpos).1
    · rw [sqrt_of_rank_eq_zero ha hzero.symm]
      exact ha
  rw [Direction.sqrt]
  split
  · exact outward_rank hfinite
  · exact outward_correct hfinite _

/-- A bound of a number gives a bound of its rounded root. -/
theorem outward_sqrt (hv : v.isFinite = true) (hv0 : 0 ≤ v.rank) (ha0 : 0 ≤ a.rank)
    (ha : d.Bounds a v.toReal) : d.Outward (d.sqrt a) v.sqrt.rank := by
  rcases ha.finite_or_limit with hfa | ⟨hia, hra⟩
  · refine (outward_sqrt_nearest hfa ha0).trans ?_
    rw [bounds_iff_side hfa] at ha
    cases d with
    | down => exact rank_sqrt_mono hfa hv ha0 (toReal_le_toReal_iff.1 ha)
    | up => exact rank_sqrt_mono hv hfa hv0 (toReal_le_toReal_iff.1 ha)
  · apply outward_of_limit (rank_sqrt_infinite hia ha0 hra)
    rw [rank_sqrt_of_nonneg hv hv0]
    exact natAbs_nearestRank_le _ Nat.two_pos

end Operations

end Direction

end Paving
