import Paving.Interval.Basic

/-!
# Inclusion of intervals, and counting cells

Inclusion is reflexive and transitive, intersections lie in their operands, and
the binary64 numbers between two bounds give every interval a size: `cells`
counts the gaps between neighbouring numbers in an interval, one for a point or
the empty interval. Inclusion does not increase it, and bisection divides it, so
it bounds how often an interval can be split.
-/

set_option autoImplicit false

namespace Paving

namespace Interval

open Binary64

/-! ## Bounds of an interval -/

/-- Bounds are never NaNs. -/
theorem bounds_not_nan (x : Interval) : x.lb.isNaN = false ∧ x.ub.isNaN = false := by
  rcases x.valid with ⟨hl, hu⟩ | h
  · rw [hl, hu]
    decide
  · exact ⟨h.1.1, h.1.2.1⟩

/-- The lower bound does not exceed the upper one. -/
theorem lb_le_ub (x : Interval) : x.lb ≤ x.ub := by
  rcases x.valid with ⟨hl, hu⟩ | h
  · rw [hl, hu]
    decide
  · exact h.1

/-- The empty interval is the one with both bounds of the rank of negative infinity. -/
theorem isEmpty_iff (x : Interval) :
    x.isEmpty = true ↔ x.lb.rank = negInf.rank ∧ x.ub.rank = negInf.rank := by
  obtain ⟨hl, hu⟩ := x.bounds_not_nan
  have hn : negInf.isNaN = false := by decide
  rw [isEmpty, Bool.and_eq_true, Binary64.beq_iff, Binary64.beq_iff]
  exact ⟨fun h => ⟨h.1.2.2, h.2.2.2⟩, fun h => ⟨⟨hl, hn, h.1⟩, hu, hn, h.2⟩⟩

@[simp] theorem isEmpty_empty : empty.isEmpty = true := by
  decide

/-! ## Inclusion -/

theorem subset_iff {x y : Interval} :
    x ⊆ y ↔ x.isEmpty = true ∨ (y.isEmpty = false ∧ y.lb ≤ x.lb ∧ x.ub ≤ y.ub) := by
  show x.isSubset y = true ↔ _
  simp [isSubset, and_assoc]

theorem empty_subset (y : Interval) : empty ⊆ y :=
  subset_iff.2 (.inl isEmpty_empty)

theorem subset_refl (x : Interval) : x ⊆ x := by
  obtain ⟨hl, hu⟩ := x.bounds_not_nan
  cases he : x.isEmpty with
  | true => exact subset_iff.2 (.inl he)
  | false => exact subset_iff.2 (.inr ⟨he, ⟨hl, hl, Int.le_refl _⟩, ⟨hu, hu, Int.le_refl _⟩⟩)

theorem subset_trans {x y z : Interval} (hxy : x ⊆ y) (hyz : y ⊆ z) : x ⊆ z := by
  rcases subset_iff.1 hxy with hx | ⟨hy, hl, hu⟩
  · exact subset_iff.2 (.inl hx)
  · rcases subset_iff.1 hyz with hy' | ⟨hz, hl', hu'⟩
    · rw [hy] at hy'
      contradiction
    · exact subset_iff.2 (.inr ⟨hz, Binary64.le_trans hl' hl, Binary64.le_trans hu hu'⟩)

/-- An intersection lies in its first operand. -/
theorem inter_subset_left (x y : Interval) : x.inter y ⊆ x := by
  obtain ⟨hxl, hxu⟩ := x.bounds_not_nan
  obtain ⟨hyl, hyu⟩ := y.bounds_not_nan
  unfold inter
  split
  case isTrue => exact empty_subset x
  case isFalse h =>
    have hx : x.isEmpty = false := by
      simp only [Bool.or_eq_true, not_or, Bool.not_eq_true] at h
      exact h.1
    unfold ofBounds
    split
    case isTrue => exact subset_iff.2 (.inr ⟨hx, (le_larger hxl hyl).1, (smaller_le hxu hyu).1⟩)
    case isFalse => exact empty_subset x

/-! ## Cells -/

/-- The number of steps from the lower bound to the upper one. -/
def span (x : Interval) : Nat :=
  (x.ub.rank - x.lb.rank).toNat

/-- The number of gaps between neighbouring numbers of the interval, at least one. -/
def cells (x : Interval) : Nat :=
  max 1 x.span

theorem one_le_cells (x : Interval) : 1 ≤ x.cells :=
  Nat.le_max_left 1 x.span

/-- A subset has no more cells. -/
theorem cells_mono {x y : Interval} (h : x ⊆ y) : x.cells ≤ y.cells := by
  rcases subset_iff.1 h with hx | ⟨_, hl, hu⟩
  · obtain ⟨hl, hu⟩ := (isEmpty_iff x).1 hx
    have hspan : x.span = 0 := by
      unfold span
      omega
    unfold cells
    omega
  · have hl' := hl.2.2
    have hu' := hu.2.2
    unfold cells span
    omega

/-- A bisected interval is not empty, the point lies strictly inside, and the halves
share it. -/
theorem bisectAt_eq_ok {x lower upper : Interval} {point : Binary64}
    (h : x.bisectAt point = .ok (lower, upper)) :
    x.isEmpty = false ∧ (x.lb < point ∧ point < x.ub) ∧
      (lower.lb = x.lb ∧ lower.ub = point) ∧ upper.lb = point ∧ upper.ub = x.ub := by
  unfold bisectAt at h
  split at h
  case isTrue => cases h
  case isFalse hne =>
    split at h
    case isTrue => cases h
    case isFalse =>
      split at h
      case isTrue hp =>
        cases h
        exact ⟨Bool.eq_false_iff.2 hne, hp, ⟨rfl, rfl⟩, rfl, rfl⟩
      case isFalse => cases h

/-- The cells of the halves are cells of the whole. -/
theorem cells_bisectAt {x lower upper : Interval} {point : Binary64}
    (h : x.bisectAt point = .ok (lower, upper)) : lower.cells + upper.cells ≤ x.cells := by
  obtain ⟨-, ⟨hl, hu⟩, ⟨h₁, h₂⟩, h₃, h₄⟩ := bisectAt_eq_ok h
  have hlow := hl.2.2
  have hhigh := hu.2.2
  simp only [cells, span, h₁, h₂, h₃, h₄]
  omega

end Interval

end Paving
