import Paving.Box.Measure
import Paving.Interval.Inclusion

/-!
# Inclusion of boxes, and counting cells

A box lies in another of the same dimension if each component does. The number of
cells of a box is the product of those of its components; it does not increase
under inclusion, and the two halves of a bisected box share the cells of the
whole. A box can therefore be split only finitely often.
-/

set_option autoImplicit false

namespace Paving

namespace Box

/-! ## Inclusion -/

theorem subset_refl (b : Box) : b ⊆ b := by
  refine ⟨rfl, ?_⟩
  intro i x y hx hy
  rw [hx] at hy
  cases hy
  exact Interval.subset_refl x

theorem subset_trans {a b c : Box} (hab : a ⊆ b) (hbc : b ⊆ c) : a ⊆ c := by
  refine ⟨hab.1.trans hbc.1, ?_⟩
  intro i x z hx hz
  have hi : i < b.components.length := by
    have := (List.getElem?_eq_some_iff.1 hx).1
    have hdim : a.components.length = b.components.length := hab.1
    omega
  have hy : b.components[i]? = some b.components[i] := List.getElem?_eq_getElem hi
  exact Interval.subset_trans (hab.2 i x _ hx hy) (hbc.2 i _ z hy hz)

theorem length_ofComponents (xs : List Interval) (h : xs ≠ []) :
    (ofComponents xs h).components.length = xs.length := by
  unfold ofComponents
  split <;> simp

/-- Restoring the invariant only removes points. -/
theorem ofComponents_subset {xs : List Interval} (h : xs ≠ []) {i : Nat} {x y : Interval}
    (hx : (ofComponents xs h).components[i]? = some x) (hy : xs[i]? = some y) : x ⊆ y := by
  unfold ofComponents at hx
  split at hx
  · simp only [List.getElem?_map, hy, Option.map_some] at hx
    cases hx
    exact Interval.empty_subset y
  · rw [hx] at hy
    cases hy
    exact Interval.subset_refl x

theorem toEmpty_subset (b : Box) : b.toEmpty ⊆ b := by
  refine ⟨by simp [dim, toEmpty], ?_⟩
  intro i x y hx hy
  simp only [toEmpty, List.getElem?_map, hy, Option.map_some] at hx
  cases hx
  exact Interval.empty_subset y

/-- Intersecting a component only removes points. -/
theorem narrow_subset (b : Box) (axis : Nat) (x : Interval) : b.narrow axis x ⊆ b := by
  refine ⟨by simp [dim, narrow, length_ofComponents], ?_⟩
  intro i u v hu hv
  by_cases hi : axis = i
  · subst hi
    have hm : (b.components.modify axis (·.inter x))[axis]? = some (v.inter x) := by
      simp [hv]
    exact Interval.subset_trans (ofComponents_subset _ hu hm) (Interval.inter_subset_left v x)
  · have hm : (b.components.modify axis (·.inter x))[i]? = some v := by
      simp [hv, hi]
    exact ofComponents_subset _ hu hm

/-! ## Cells -/

/-- The product of the cells of a list of components. -/
def cellsOf : List Interval → Nat
  | [] => 1
  | x :: xs => x.cells * cellsOf xs

/-- The number of cells of a box. -/
def cells (b : Box) : Nat :=
  cellsOf b.components

theorem one_le_cellsOf (xs : List Interval) : 1 ≤ cellsOf xs := by
  induction xs with
  | nil => exact Nat.le_refl 1
  | cons x xs ih => exact Nat.mul_le_mul x.one_le_cells ih

theorem one_le_cells (b : Box) : 1 ≤ b.cells :=
  one_le_cellsOf b.components

/-- Componentwise inclusion does not increase the product. -/
theorem cellsOf_mono : ∀ {xs ys : List Interval}, xs.length = ys.length →
    (∀ (i : Nat) (x y : Interval), xs[i]? = some x → ys[i]? = some y → x ⊆ y) →
    cellsOf xs ≤ cellsOf ys
  | [], [], _, _ => Nat.le_refl 1
  | x :: xs, y :: ys, hlen, h => by
    have hhead : x ⊆ y := h 0 x y rfl rfl
    have htail : cellsOf xs ≤ cellsOf ys :=
      cellsOf_mono (Nat.succ.inj hlen) fun i u v hu hv => h (i + 1) u v hu hv
    exact Nat.mul_le_mul (Interval.cells_mono hhead) htail

/-- A sub-box has no more cells. -/
theorem cells_mono {a b : Box} (h : a ⊆ b) : a.cells ≤ b.cells :=
  cellsOf_mono h.1 h.2

/-- Restoring the invariant does not increase the number of cells. -/
theorem cells_ofComponents_le (xs : List Interval) (h : xs ≠ []) :
    (ofComponents xs h).cells ≤ cellsOf xs :=
  cellsOf_mono (length_ofComponents xs h) fun _ _ _ hx hy => ofComponents_subset h hx hy

/-- Replacing one component by each of two parts divides the product. -/
theorem cellsOf_set_add_le : ∀ {xs : List Interval} {i : Nat} {x lower upper : Interval},
    xs[i]? = some x → lower.cells + upper.cells ≤ x.cells →
    cellsOf (xs.set i lower) + cellsOf (xs.set i upper) ≤ cellsOf xs
  | y :: xs, 0, x, lower, upper, hx, h => by
    cases hx
    show lower.cells * cellsOf xs + upper.cells * cellsOf xs ≤ y.cells * cellsOf xs
    rw [← Nat.add_mul]
    exact Nat.mul_le_mul_right _ h
  | y :: xs, i + 1, x, lower, upper, hx, h => by
    show y.cells * cellsOf (xs.set i lower) + y.cells * cellsOf (xs.set i upper)
      ≤ y.cells * cellsOf xs
    rw [← Nat.mul_add]
    exact Nat.mul_le_mul_left _ (cellsOf_set_add_le (List.getElem?_cons_succ ▸ hx) h)

/-- A box is bisected by bisecting the component on the axis at its midpoint. -/
theorem bisectAxis_eq_map {b : Box} {axis : Nat} {x : Interval}
    (hx : b.components[axis]? = some x) : b.bisectAxis axis =
      (BoxError.lift x.bisect).map fun halves =>
        (b.replace axis halves.1, b.replace axis halves.2) := by
  simp only [bisectAxis, bisectAt, get, hx, bind, Except.bind, Interval.bisect]
  cases x.mid with
  | error e => rfl
  | ok point =>
    simp only [BoxError.lift]
    cases x.bisectAt point with
    | error e => rfl
    | ok halves => rfl

/-- The halves of a box differ from it on the axis, where they have the halves of the
component. -/
theorem bisectAxis_eq_ok {b lower upper : Box} {axis : Nat}
    (h : b.bisectAxis axis = .ok (lower, upper)) :
    ∃ x point xl xu, b.components[axis]? = some x ∧ x.bisectAt point = .ok (xl, xu) ∧
      lower = b.replace axis xl ∧ upper = b.replace axis xu := by
  cases hx : b.components[axis]? with
  | none => simp [bisectAxis, get, hx, bind, Except.bind] at h
  | some x =>
    rw [bisectAxis_eq_map hx, Interval.bisect] at h
    cases hm : x.mid with
    | error e => simp [hm, bind, Except.bind, BoxError.lift, Except.map] at h
    | ok point =>
      cases hb : x.bisectAt point with
      | error e => simp [hm, hb, bind, Except.bind, BoxError.lift, Except.map] at h
      | ok halves =>
        simp only [hm, hb, bind, Except.bind, BoxError.lift, Except.map, Except.ok.injEq,
          Prod.mk.injEq] at h
        exact ⟨x, point, halves.1, halves.2, rfl, hb, h.1.symm, h.2.symm⟩

/-- The cells of the halves of a bisected box are cells of the box. -/
theorem cells_bisectAxis {b lower upper : Box} {axis : Nat}
    (h : b.bisectAxis axis = .ok (lower, upper)) : lower.cells + upper.cells ≤ b.cells := by
  obtain ⟨x, point, xl, xu, hx, hb, rfl, rfl⟩ := bisectAxis_eq_ok h
  have hparts := cellsOf_set_add_le hx (Interval.cells_bisectAt hb)
  have hlower := cells_ofComponents_le (b.components.set axis xl) (by simpa using b.nonempty)
  have hupper := cells_ofComponents_le (b.components.set axis xu) (by simpa using b.nonempty)
  unfold replace
  unfold cells at *
  omega

end Box

end Paving
