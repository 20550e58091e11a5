import Paving.Interval.Arithmetic

/-!
# Backward operators

Given the range `y` of an operator's result, each function narrows the operator's
arguments with the inverse of the operator, rounded outward like the operator
itself. An argument is always intersected with the range it had, so it can only
shrink, possibly to nothing.
-/

set_option autoImplicit false

namespace Paving

namespace Interval

/-- Narrows `x` with respect to `y = -x`. -/
def negBackward (y x : Interval) : Interval :=
  x.inter (-y)

/-- Narrows both summands with respect to `y = x₁ + x₂`, the second one using
the narrowed first. -/
def addBackward (y x₁ x₂ : Interval) : Interval × Interval :=
  let first := x₁.inter (y - x₂)
  (first, x₂.inter (y - first))

/-- Narrows minuend and subtrahend with respect to `y = x₁ - x₂`, the second one
using the narrowed first. -/
def subBackward (y x₁ x₂ : Interval) : Interval × Interval :=
  let first := x₁.inter (y + x₂)
  (first, x₂.inter (first - y))

/-- Narrows `x` with respect to `y = a * x`. With a zero factor the product is
zero, so `x` is kept if `y` holds zero. A factor that is not finite leaves
nothing. -/
def scaleBackward (a : Binary64) (y x : Interval) : Interval :=
  if !a.isFinite then empty
  else if a == Binary64.zero then
    if y.contains Binary64.zero then x else empty
  else x.inter (y.unscale a)

/-- Narrows `x` with respect to `y = x^2`: both branches of the root are met with
`x`, and the hull is kept. -/
def sqrBackward (y x : Interval) : Interval :=
  let root := y.sqrt
  (x.inter (-root)).hull (x.inter root)

/-- Narrows `x` with respect to `y = sqrt x`. -/
def sqrtBackward (y x : Interval) : Interval :=
  x.inter y.sqr

end Interval

end Paving
