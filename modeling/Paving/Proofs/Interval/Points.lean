import Paving.Interval.Inclusion
import Paving.Proofs.Binary64.Value

/-!
# The real points of an interval

A real number is a point of an interval when the lower bound is below it and the
upper one above it. The empty interval has no point. The set operations act on
points as their names say, and the halves of a bisected interval have all its
points between them (`mem_halves_of_bisectAt`).
-/

set_option autoImplicit false

namespace Paving

namespace Interval

open Binary64

/-- The points of an interval. -/
instance : Membership ℝ Interval where
  mem x t := Direction.down.Bounds x.lb t ∧ Direction.up.Bounds x.ub t

theorem mem_iff {x : Interval} {t : ℝ} : t ∈ x ↔ x.lb.value ≤ t ∧ (t : EReal) ≤ x.ub.value := by
  obtain ⟨hl, hu⟩ := x.bounds_not_nan
  exact ⟨fun h => ⟨h.1.2, h.2.2⟩, fun h => ⟨⟨hl, h.1⟩, hu, h.2⟩⟩

theorem value_negInf : negInf.value = ⊥ := by
  simp only [value, show negInf.isInfinite = true by decide, show negInf.negative = true by decide,
    if_true]

theorem value_posInf : posInf.value = ⊤ := by
  simp [value, show posInf.isInfinite = true by decide, show posInf.negative = false by decide]

/-- An interval with a point is not empty. -/
theorem not_isEmpty_of_mem {x : Interval} {t : ℝ} (h : t ∈ x) : x.isEmpty = false := by
  cases he : x.isEmpty with
  | false => rfl
  | true =>
    obtain ⟨-, hu⟩ := x.bounds_not_nan
    have hrank : x.ub.rank ≤ negInf.rank := ((isEmpty_iff x).1 he).2.le
    have hval := (value_le_value_iff hu (by decide)).2 hrank
    rw [value_negInf] at hval
    have hbot := le_trans (mem_iff.1 h).2 hval
    exact absurd (le_bot_iff.1 hbot) (EReal.coe_ne_bot t)

theorem mem_all (t : ℝ) : t ∈ all := by
  refine mem_iff.2 ⟨?_, ?_⟩
  · show negInf.value ≤ _
    rw [value_negInf]
    exact bot_le
  · show _ ≤ posInf.value
    rw [value_posInf]
    exact le_top

theorem value_zero : Binary64.zero.value = ((0 : ℝ) : EReal) := by
  have hu : Binary64.zero.units = 0 := by decide
  rw [value_of_finite (by decide), toReal, hu]
  simp

theorem zero_mem_zero : (0 : ℝ) ∈ Interval.zero :=
  mem_iff.2 ⟨value_zero.le, value_zero.ge⟩

/-- A sub-interval has no other points. -/
theorem mem_of_subset {x y : Interval} {t : ℝ} (h : x ⊆ y) (ht : t ∈ x) : t ∈ y := by
  rcases subset_iff.1 h with he | ⟨-, hl, hu⟩
  · rw [not_isEmpty_of_mem ht] at he
    exact absurd he Bool.false_ne_true
  · rw [mem_iff] at ht ⊢
    exact ⟨le_trans (value_le_value hl) ht.1, le_trans ht.2 (value_le_value hu)⟩

/-- The test for zero finds zero when it is a point. -/
theorem contains_zero_of_mem {x : Interval} (h : (0 : ℝ) ∈ x) :
    x.contains Binary64.zero = true := by
  obtain ⟨hl, hu⟩ := x.bounds_not_nan
  have hz : Binary64.zero.isNaN = false := by decide
  rw [mem_iff, ← value_zero, value_le_value_iff hl hz, value_le_value_iff hz hu] at h
  have hlz : x.lb ≤ Binary64.zero := ⟨hl, hz, h.1⟩
  have hzu : Binary64.zero ≤ x.ub := ⟨hz, hu, h.2⟩
  have he : x.isEmpty = false :=
    not_isEmpty_of_mem (mem_iff.2 ⟨le_trans (value_le_value hlz) value_zero.le,
      le_trans value_zero.ge (value_le_value hzu)⟩)
  simp [contains, he, hlz, hzu]

/-- Two bounds around a number make an interval that has it as a point. -/
theorem mem_ofBounds {lb ub : Binary64} {t : ℝ} (hl : Direction.down.Bounds lb t)
    (hu : Direction.up.Bounds ub t) : t ∈ ofBounds lb ub := by
  have hvalues : lb.value ≤ ub.value := le_trans hl.2 hu.2
  have hle : lb.rank ≤ ub.rank := (value_le_value_iff hl.1 hu.1).1 hvalues
  -- A bound that is infinite on the wrong side would leave no room for `t`.
  have hlb : ¬ posInf.rank ≤ lb.rank := by
    intro h
    have := le_trans ((value_le_value_iff (by decide) hl.1).2 h) hl.2
    rw [value_posInf] at this
    exact absurd (top_le_iff.1 this) (EReal.coe_ne_top t)
  have hub : ¬ ub.rank ≤ negInf.rank := by
    intro h
    have := le_trans hu.2 ((value_le_value_iff hu.1 (by decide)).2 h)
    rw [value_negInf] at this
    exact absurd (le_bot_iff.1 this) (EReal.coe_ne_bot t)
  have hadm : AdmissibleBounds lb ub :=
    ⟨⟨hl.1, hu.1, hle⟩, ⟨hl.1, by decide, not_le.1 hlb⟩, ⟨by decide, hu.1, not_le.1 hub⟩⟩
  rw [ofBounds, dif_pos hadm]
  exact ⟨hl, hu⟩

/-- The interval of one number has its value as a point. -/
theorem toReal_mem_ofBounds {v : Binary64} (hv : v.isFinite = true) : v.toReal ∈ ofBounds v v :=
  mem_ofBounds ⟨not_nan_of_finite hv, (value_of_finite hv).le⟩
    ⟨not_nan_of_finite hv, (value_of_finite hv).ge⟩

/-! ## Set operations -/

theorem bounds_larger {a b : Binary64} {t : ℝ} (ha : Direction.down.Bounds a t)
    (hb : Direction.down.Bounds b t) : Direction.down.Bounds (larger a b) t := by
  rw [larger]
  split
  · exact hb
  · exact ha

theorem bounds_smaller {a b : Binary64} {t : ℝ} (ha : Direction.up.Bounds a t)
    (hb : Direction.up.Bounds b t) : Direction.up.Bounds (smaller a b) t := by
  rw [smaller]
  split
  · exact hb
  · exact ha

/-- A common point is a point of the intersection. -/
theorem mem_inter {x y : Interval} {t : ℝ} (hx : t ∈ x) (hy : t ∈ y) : t ∈ x.inter y := by
  rw [inter, not_isEmpty_of_mem hx, not_isEmpty_of_mem hy]
  exact mem_ofBounds (bounds_larger hx.1 hy.1) (bounds_smaller hx.2 hy.2)

theorem mem_hull_left {x y : Interval} {t : ℝ} (hx : t ∈ x) : t ∈ x.hull y := by
  obtain ⟨hxl, hxu⟩ := x.bounds_not_nan
  obtain ⟨hyl, hyu⟩ := y.bounds_not_nan
  rw [hull, not_isEmpty_of_mem hx]
  cases hy : y.isEmpty with
  | true => exact hx
  | false =>
    have hl := (smaller_le hxl hyl).1
    have hu := (le_larger hxu hyu).1
    exact mem_ofBounds ⟨hl.1, le_trans (value_le_value hl) (mem_iff.1 hx).1⟩
      ⟨hu.2.1, le_trans (mem_iff.1 hx).2 (value_le_value hu)⟩

theorem mem_hull_right {x y : Interval} {t : ℝ} (hy : t ∈ y) : t ∈ x.hull y := by
  obtain ⟨hxl, hxu⟩ := x.bounds_not_nan
  obtain ⟨hyl, hyu⟩ := y.bounds_not_nan
  rw [hull]
  cases hx : x.isEmpty with
  | true => exact hy
  | false =>
    rw [not_isEmpty_of_mem hy]
    have hl := (smaller_le hxl hyl).2
    have hu := (le_larger hxu hyu).2
    exact mem_ofBounds ⟨hl.1, le_trans (value_le_value hl) (mem_iff.1 hy).1⟩
      ⟨hu.2.1, le_trans (mem_iff.1 hy).2 (value_le_value hu)⟩

/-! ## Bisection -/

/-- Every point lies in one of the halves; the point of bisection lies in both. -/
theorem mem_halves_of_bisectAt {x lower upper : Interval} {point : Binary64} {t : ℝ}
    (h : x.bisectAt point = .ok (lower, upper)) (ht : t ∈ x) : t ∈ lower ∨ t ∈ upper := by
  obtain ⟨-, -, ⟨h₁, h₂⟩, h₃, h₄⟩ := bisectAt_eq_ok h
  rw [mem_iff, mem_iff, h₁, h₂, h₃, h₄]
  -- The point of bisection is the upper bound of one half and the lower bound of the other.
  rcases le_total (t : EReal) point.value with hle | hge
  · exact .inl ⟨(mem_iff.1 ht).1, hle⟩
  · exact .inr ⟨hge, (mem_iff.1 ht).2⟩

end Interval

end Paving
