import Paving.Constraint
import Paving.Proofs.Interval.Isotony

/-!
# Expressions over smaller boxes

The value of an expression over a box should hold its value over every box inside, so that what
is ruled out stays ruled out when a box is divided. By induction on the expression this comes
down to its operators, and it holds if no operator overshoots on the way and no sum over the
larger box loses its error: `Steady` collects these conditions node by node, and
`range_subset_range` is the induction.

The conditions on products and squares cannot be dropped. The equation `x / 4 = 2^-1074` is
ruled out on the segment from `-2^-1074` to zero, and not on its lower end alone: a quarter of
the least number vanishes and is widened on both sides of zero.
-/

set_option autoImplicit false

namespace Paving

namespace Box

/-- The box of one axis. -/
def single (x : Interval) : Box where
  components := [x]
  nonempty := List.cons_ne_nil _ _
  uniform := by
    intro y hy z hz
    rw [List.mem_singleton.1 hy, List.mem_singleton.1 hz]

theorem single_subset_single {x y : Interval} (h : x ⊆ y) : single x ⊆ single y := by
  refine ⟨rfl, ?_⟩
  intro i u v hu hv
  cases i with
  | zero =>
    cases hu
    cases hv
    exact h
  | succ i => cases hu

end Box

namespace Expr

/-- At no node does the value over the smaller components overshoot that over the larger ones,
and no sum over the larger ones loses its error. -/
def Steady (xs ys : List Interval) : Expr → Prop
  | var _ => True
  | const _ => True
  | neg e => e.Steady xs ys
  | add e₁ e₂ => e₁.Steady xs ys ∧ e₂.Steady xs ys ∧ ¬ (e₁.range ys).LosesError (e₂.range ys)
  | sub e₁ e₂ => e₁.Steady xs ys ∧ e₂.Steady xs ys ∧ ¬ (e₁.range ys).LosesError (-e₂.range ys)
  | scale a e => e.Steady xs ys ∧ ¬ Interval.ScaleOvershoots a (e.range xs) (e.range ys)
  | sqr e => e.Steady xs ys ∧ ¬ Interval.SqrOvershoots (e.range xs) (e.range ys)
  | sqrt e => e.Steady xs ys

/-- The value over smaller components lies in that over larger ones. -/
theorem range_subset_range {xs ys : List Interval}
    (h : ∀ axis, (var axis).range xs ⊆ (var axis).range ys) {e : Expr} (hsteady : e.Steady xs ys) :
    e.range xs ⊆ e.range ys := by
  induction e with
  | var axis => exact h axis
  | const c => exact Interval.subset_refl c
  | neg e ih => exact Interval.neg_subset_neg (ih hsteady)
  | add e₁ e₂ ih₁ ih₂ =>
    obtain ⟨h₁, h₂, hkept⟩ := hsteady
    exact Interval.add_subset_add (ih₁ h₁) (ih₂ h₂) hkept
  | sub e₁ e₂ ih₁ ih₂ =>
    obtain ⟨h₁, h₂, hkept⟩ := hsteady
    exact Interval.sub_subset_sub (ih₁ h₁) (ih₂ h₂) hkept
  | scale a e ih => exact (Interval.scale_subset_scale_iff (ih hsteady.1)).2 hsteady.2
  | sqr e ih => exact (Interval.sqr_subset_sqr_iff (ih hsteady.1)).2 hsteady.2
  | sqrt e ih => exact Interval.sqrt_subset_sqrt (ih hsteady)

section Boxes

variable {e : Expr} {b b' : Box}

theorem range_var_subset (h : b ⊆ b') (axis : Nat) :
    (var axis).range b.components ⊆ (var axis).range b'.components := by
  have hdim : b.components.length = b'.components.length := h.1
  rw [range, range]
  by_cases haxis : axis < b.components.length
  · have hx := List.getElem?_eq_getElem haxis
    have hy := List.getElem?_eq_getElem (hdim ▸ haxis)
    rw [hx, hy]
    exact h.2 axis _ _ hx hy
  · -- A variable without a component ranges over all reals in both boxes.
    have hx := List.getElem?_eq_none (Nat.le_of_not_lt haxis)
    have hy := List.getElem?_eq_none (Nat.le_of_not_lt (hdim ▸ haxis))
    rw [hx, hy]
    exact Interval.subset_refl _

theorem eval_subset_eval (h : b ⊆ b') (hsteady : e.Steady b.components b'.components) :
    e.eval b ⊆ e.eval b' := by
  rw [eval, eval]
  split
  case isTrue => exact Interval.empty_subset _
  case isFalse hb =>
    have hb' : ¬ b'.isEmpty = true := fun hempty => hb (Box.isEmpty_of_subset h hempty)
    rw [if_neg hb']
    exact range_subset_range (range_var_subset h) hsteady

end Boxes

/-- Values over smaller boxes are smaller, and a box inside one that is ruled out is ruled out,
provided that no operator overshoots and no sum loses its error. -/
theorem eval_isotonic_of_steady {e : Expr} {b b' : Box} (h : b ⊆ b')
    (hsteady : e.Steady b.components b'.components) :
    e.eval b ⊆ e.eval b' ∧
      ((Constraint.equation (.ofExpr e)).violated b' = true →
        (Constraint.equation (.ofExpr e)).violated b = true) := by
  have hsubset := eval_subset_eval h hsteady
  refine ⟨hsubset, ?_⟩
  show (!(e.eval b').contains Binary64.zero) = true → (!(e.eval b).contains Binary64.zero) = true
  rw [Bool.not_eq_true', Bool.not_eq_true', ← Bool.not_eq_true, ← Bool.not_eq_true]
  exact mt (Interval.contains_of_subset hsubset)

/-- The equation `x / 4 = 2^-1074`. -/
def quarterOfLeast : Expr :=
  .sub (.scale ⟨0x3fd0000000000000⟩ (.var 0)) (.value ⟨1⟩)

/-- The segment from `-1` to zero. -/
def unitBelowZero : Interval :=
  Interval.ofBounds ⟨0xbff0000000000000⟩ Binary64.zero

/-- Its lower half. -/
def lowerHalf : Interval :=
  Interval.ofBounds ⟨0xbff0000000000000⟩ ⟨0xbfe0000000000000⟩

/-- The equation is ruled out between `-1` and zero, and so it is on the lower half: the quarters
of its bounds are numbers. -/
theorem quarterOfLeast_ruledOut :
    Box.single lowerHalf ⊆ Box.single unitBelowZero ∧
      quarterOfLeast.Steady [lowerHalf] [unitBelowZero] ∧
      (Constraint.equation (.ofExpr quarterOfLeast)).violated (.single unitBelowZero) = true ∧
      quarterOfLeast.eval (.single lowerHalf) ⊆ quarterOfLeast.eval (.single unitBelowZero) ∧
      (Constraint.equation (.ofExpr quarterOfLeast)).violated (.single lowerHalf) = true := by
  have hsubset : Box.single lowerHalf ⊆ Box.single unitBelowZero :=
    Box.single_subset_single (by decide +kernel)
  have hsteady : quarterOfLeast.Steady [lowerHalf] [unitBelowZero] :=
    ⟨⟨trivial, by decide +kernel⟩, trivial, by decide +kernel⟩
  have hruledOut :
      (Constraint.equation (.ofExpr quarterOfLeast)).violated (.single unitBelowZero) = true := by
    decide +kernel
  obtain ⟨heval, hviolated⟩ := eval_isotonic_of_steady hsubset hsteady
  exact ⟨hsubset, hsteady, hruledOut, heval, hviolated hruledOut⟩

/-- The segment from `-2^-1074` to zero. -/
def belowZero : Interval :=
  Interval.ofBounds ⟨0x8000000000000001⟩ Binary64.zero

/-- The number `-2^-1074`. -/
def leastBelowZero : Interval :=
  Interval.ofBounds ⟨0x8000000000000001⟩ ⟨0x8000000000000001⟩

/-- The value over the lower end of the segment is not part of that over the segment, and the
equation that is ruled out on the segment is not ruled out there. -/
theorem quarterOfLeast_overshoots :
    Box.single leastBelowZero ⊆ Box.single belowZero ∧
      ¬ quarterOfLeast.eval (.single leastBelowZero) ⊆ quarterOfLeast.eval (.single belowZero) ∧
      (Constraint.equation (.ofExpr quarterOfLeast)).violated (.single belowZero) = true ∧
      (Constraint.equation (.ofExpr quarterOfLeast)).violated (.single leastBelowZero) = false :=
  ⟨Box.single_subset_single (by decide +kernel), by decide +kernel, by decide +kernel,
    by decide +kernel⟩

end Expr

end Paving
