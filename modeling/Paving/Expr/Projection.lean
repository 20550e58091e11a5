import Paving.Expr.Basic
import Paving.Interval.Backward
import Paving.Box.Inclusion

/-!
# Projecting an expression onto a target

Projection narrows a box to the points at which an expression may take a value in
a target interval. Each node meets the target with its own value over the box and
hands what is left to its arguments through the backward operators; a variable
intersects its component. The box can only shrink (`project_subset`).
-/

set_option autoImplicit false

namespace Paving

namespace Expr

/-! ## One node -/

/-- Meets the target `y` with the value `own` of a node over the box. Nothing is
left of the box if they have no point in common; otherwise `descend` narrows the
box with the common part. -/
def meetTarget (b : Box) (y own : Interval) (descend : Interval → Box × Bool) : Box × Bool :=
  if b.isEmpty then (b, false)
  else if (y.inter own).isEmpty then (b.toEmpty, false)
  else descend (y.inter own)

/-- Narrows with two arguments in turn. The second one starts from what the first
one left, and is passed over if that is nothing. -/
def inTurn (first : Box × Bool) (second : Box → Box × Bool) : Box × Bool :=
  if first.2 then second first.1 else (first.1, false)

/-- Narrows the component of a variable. A variable without a component narrows
nothing. -/
def projectVar (axis : Nat) (b : Box) (target : Interval) : Box × Bool :=
  if axis < b.dim then
    let narrowed := b.narrow axis target
    (narrowed, !narrowed.isEmpty)
  else (b, true)

/-! ## The whole tree -/

/-- The box narrowed to the points whose value may lie in `y`, and whether it is
non-empty afterwards. -/
def project : Expr → Box → Interval → Box × Bool
  | var axis, b, y =>
    meetTarget b y ((var axis).eval b) fun target => projectVar axis b target
  | const c, b, y =>
    meetTarget b y ((const c).eval b) fun _ => (b, true)
  | neg e, b, y =>
    meetTarget b y (e.neg.eval b) fun target =>
      e.project b (Interval.negBackward target (e.eval b))
  | add e₁ e₂, b, y =>
    meetTarget b y ((e₁.add e₂).eval b) fun target =>
      let (x₁, x₂) := Interval.addBackward target (e₁.eval b) (e₂.eval b)
      inTurn (e₁.project b x₁) fun left => e₂.project left x₂
  | sub e₁ e₂, b, y =>
    meetTarget b y ((e₁.sub e₂).eval b) fun target =>
      let (x₁, x₂) := Interval.subBackward target (e₁.eval b) (e₂.eval b)
      inTurn (e₁.project b x₁) fun left => e₂.project left x₂
  | scale a e, b, y =>
    meetTarget b y ((e.scale a).eval b) fun target =>
      e.project b (Interval.scaleBackward a target (e.eval b))
  | sqr e, b, y =>
    meetTarget b y (e.sqr.eval b) fun target =>
      e.project b (Interval.sqrBackward target (e.eval b))
  | sqrt e, b, y =>
    meetTarget b y (e.sqrt.eval b) fun target =>
      e.project b (Interval.sqrtBackward target (e.eval b))

/-! ## Projection shrinks -/

theorem meetTarget_subset {b : Box} {y own : Interval} {descend : Interval → Box × Bool}
    (h : ∀ target, (descend target).1 ⊆ b) : (meetTarget b y own descend).1 ⊆ b := by
  unfold meetTarget
  split
  case isTrue => exact b.subset_refl
  case isFalse =>
    split
    case isTrue => exact b.toEmpty_subset
    case isFalse => exact h _

theorem inTurn_subset {b : Box} {first : Box × Bool} {second : Box → Box × Bool}
    (hfirst : first.1 ⊆ b) (hsecond : ∀ left, (second left).1 ⊆ left) :
    (inTurn first second).1 ⊆ b := by
  unfold inTurn
  split
  case isTrue => exact Box.subset_trans (hsecond first.1) hfirst
  case isFalse => exact hfirst

theorem projectVar_subset (axis : Nat) (b : Box) (target : Interval) :
    (projectVar axis b target).1 ⊆ b := by
  unfold projectVar
  split
  case isTrue => exact b.narrow_subset axis target
  case isFalse => exact b.subset_refl

/-- Projection never enlarges a box. -/
theorem project_subset (e : Expr) (b : Box) (y : Interval) : (e.project b y).1 ⊆ b := by
  induction e generalizing b y with
  | var axis => exact meetTarget_subset fun target => projectVar_subset axis b target
  | const c => exact meetTarget_subset fun _ => b.subset_refl
  | neg e ih => exact meetTarget_subset fun _ => ih b _
  | scale a e ih => exact meetTarget_subset fun _ => ih b _
  | sqr e ih => exact meetTarget_subset fun _ => ih b _
  | sqrt e ih => exact meetTarget_subset fun _ => ih b _
  | add e₁ e₂ ih₁ ih₂ =>
    exact meetTarget_subset fun _ => inTurn_subset (ih₁ b _) fun left => ih₂ left _
  | sub e₁ e₂ ih₁ ih₂ =>
    exact meetTarget_subset fun _ => inTurn_subset (ih₁ b _) fun left => ih₂ left _

end Expr

end Paving
