import Paving.Expr.Projection

/-!
# Constraints

A constraint can rule out a box, when it finds that no point of the box satisfies
it, and can narrow a box toward the points that do. Equations `f = 0` over an
inclusion function `f` do both; a bare test only rules out.

Narrowing is expected to shrink the box it is given. `Constraint.Narrows` states
this, it holds for every kind of constraint here, and a `Problem` collects
constraints for which it holds.
-/

set_option autoImplicit false

namespace Paving

/-! ## Inclusion functions -/

/-- A real function known through enclosures: `eval` is an enclosure of its values over a
box, and `project` narrows a box to the points whose value may lie in a target
and says whether any are left. -/
structure InclusionFunction where
  eval : Box → Interval
  project : Box → Interval → Box × Bool

namespace InclusionFunction

/-- A function known through its enclosures alone. Projection keeps the whole box
if the enclosure meets the target, and nothing otherwise. -/
def ofEval (eval : Box → Interval) : InclusionFunction where
  eval := eval
  project b y :=
    if b.isEmpty then (b, false)
    else if (eval b).intersects y then (b, true)
    else (b.toEmpty, false)

/-- The function of an expression, projected node by node. -/
def ofExpr (e : Expr) : InclusionFunction where
  eval := e.eval
  project := e.project

end InclusionFunction

/-! ## Constraints -/

/-- A condition on points: `violated` shows that no point of a box satisfies it,
and `contract` narrows a box and says whether it may hold a satisfying point. -/
structure Constraint where
  violated : Box → Bool
  contract : Box → Box × Bool

namespace Constraint

/-- The constraint only shrinks boxes. -/
def Narrows (c : Constraint) : Prop :=
  ∀ b : Box, (c.contract b).1 ⊆ b

/-- The equation `f = 0`. It is violated where the enclosure of `f` excludes zero,
and narrows a box by projecting `f` onto zero. -/
def equation (f : InclusionFunction) : Constraint where
  violated b := !(f.eval b).contains Binary64.zero
  contract b := f.project b Interval.zero

/-- A constraint known through its test alone. It leaves boxes as they are, and
lets those pass that are non-empty and not violated. -/
def ofTest (violated : Box → Bool) : Constraint where
  violated := violated
  contract b := (b, !b.isEmpty && !violated b)

theorem narrows_equation_ofExpr (e : Expr) : (equation (.ofExpr e)).Narrows :=
  fun b => e.project_subset b Interval.zero

theorem narrows_equation_ofEval (eval : Box → Interval) : (equation (.ofEval eval)).Narrows := by
  intro b
  show (if b.isEmpty then (b, false)
    else if (eval b).intersects Interval.zero then (b, true) else (b.toEmpty, false)).1 ⊆ b
  split
  case isTrue => exact b.subset_refl
  case isFalse =>
    split
    case isTrue => exact b.subset_refl
    case isFalse => exact b.toEmpty_subset

theorem narrows_ofTest (violated : Box → Bool) : (ofTest violated).Narrows :=
  fun b => b.subset_refl

end Constraint

/-! ## Kinds of constraints over expressions -/

/-- A constraint that asks an expression to be zero, by how much of the expression
it may use. -/
inductive Condition where
  /-- The equation narrows boxes through the nodes of the expression. -/
  | equation (e : Expr)
  /-- The equation knows the expression through its values alone. -/
  | enclosure (e : Expr)
  /-- The condition can only rule out boxes. -/
  | test (e : Expr)

namespace Condition

/-- The expression that is asked to be zero. -/
def expr : Condition → Expr
  | equation e => e
  | enclosure e => e
  | test e => e

/-- The inclusion function behind a condition. -/
def function : Condition → InclusionFunction
  | equation e => .ofExpr e
  | enclosure e => .ofEval e.eval
  | test e => .ofExpr e

/-- The constraint that a condition stands for. -/
def constraint : Condition → Constraint
  | equation e => .equation (.ofExpr e)
  | enclosure e => .equation (.ofEval e.eval)
  | test e => .ofTest fun b => !(e.eval b).contains Binary64.zero

theorem narrows_constraint (c : Condition) : c.constraint.Narrows := by
  cases c with
  | equation e => exact Constraint.narrows_equation_ofExpr e
  | enclosure e => exact Constraint.narrows_equation_ofEval e.eval
  | test e => exact Constraint.narrows_ofTest _

end Condition

/-! ## Problems -/

/-- Constraints to be satisfied together, each of which only shrinks boxes. -/
structure Problem where
  constraints : List Constraint
  narrows : ∀ c ∈ constraints, c.Narrows

namespace Problem

/-- The problem of a list of conditions. -/
def ofConditions (conditions : List Condition) : Problem where
  constraints := conditions.map Condition.constraint
  narrows := by
    intro c hc
    obtain ⟨condition, _, rfl⟩ := List.mem_map.1 hc
    exact condition.narrows_constraint

/-- The number of constraints. -/
def size (p : Problem) : Nat :=
  p.constraints.length

end Problem

end Paving
