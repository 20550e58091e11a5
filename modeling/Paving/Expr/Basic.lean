import Paving.Box.Basic
import Paving.Interval.Arithmetic

/-!
# Expressions over the components of a box

An expression is an arithmetic tree whose leaves are box components and constant
intervals. Its value over a box is the natural interval extension: each operator
is replaced by its interval counterpart. A variable without a component ranges
over all reals, and every expression is empty over an empty box.
-/

set_option autoImplicit false

namespace Paving

/-- An arithmetic expression in the components of a box. -/
inductive Expr where
  | var (axis : Nat)
  | const (c : Interval)
  | neg (e : Expr)
  | add (e₁ e₂ : Expr)
  | sub (e₁ e₂ : Expr)
  | scale (a : Binary64) (e : Expr)
  | sqr (e : Expr)
  | sqrt (e : Expr)
deriving Inhabited

namespace Expr

/-! ## Building expressions -/

/-- The constant with a single value. A value that is no real number gives the
empty constant. -/
def value (v : Binary64) : Expr :=
  const (Interval.ofBounds v v)

instance : Neg Expr where
  neg := neg

instance : Add Expr where
  add := add

instance : Sub Expr where
  sub := sub

/-- Equality of trees, with factors and constants compared as numbers: a NaN
factor differs from itself, and the two zeros agree. -/
def same : Expr → Expr → Bool
  | var i, var j => i == j
  | const c, const d => c == d
  | neg e, neg f => e.same f
  | add e₁ e₂, add f₁ f₂ => e₁.same f₁ && e₂.same f₂
  | sub e₁ e₂, sub f₁ f₂ => e₁.same f₁ && e₂.same f₂
  | scale a e, scale b f => a == b && e.same f
  | sqr e, sqr f => e.same f
  | sqrt e, sqrt f => e.same f
  | _, _ => false

instance : BEq Expr where
  beq := same

/-! ## Evaluation -/

/-- The natural interval extension over a list of components. -/
def range (xs : List Interval) : Expr → Interval
  | var axis => xs[axis]?.getD Interval.all
  | const c => c
  | neg e => -e.range xs
  | add e₁ e₂ => e₁.range xs + e₂.range xs
  | sub e₁ e₂ => e₁.range xs - e₂.range xs
  | scale a e => (e.range xs).scale a
  | sqr e => (e.range xs).sqr
  | sqrt e => (e.range xs).sqrt

/-- The value over a box, empty over an empty box. -/
def eval (e : Expr) (b : Box) : Interval :=
  if b.isEmpty then Interval.empty else e.range b.components

end Expr

end Paving
