import Paving.Interval.Error

/-!
# Causes of failure in box operations
-/

set_option autoImplicit false

namespace Paving

/-- Why a box could not be built, measured, combined or split. -/
inductive BoxError where
  /-- A box needs at least one component. -/
  | dimension
  /-- An empty box has no diameter. -/
  | empty
  /-- Two boxes, or a box and a point, have different dimensions. -/
  | dimensionMismatch (expected found : Nat)
  /-- The axis is not one of the box. This is a mistake in the calling program, which stops
  there; every other cause is an answer that the caller goes on from. -/
  | noSuchAxis (axis dim : Nat)
  /-- An operation on a component failed. -/
  | interval (cause : IntervalError)
deriving DecidableEq

namespace BoxError

/-- The wording of a cause. A failure of a component keeps its own wording. -/
def message : BoxError → String
  | dimension => "box dimension must be at least 1"
  | empty => "diameter of an empty box is undefined"
  | dimensionMismatch expected found =>
    s!"dimension mismatch: expected {expected}, found {found}"
  | noSuchAxis axis dim => s!"axis {axis} is outside a box of dimension {dim}"
  | interval cause => cause.message

/-- The cause by name, with its numbers. -/
def detail : BoxError → String
  | dimension => "Dimension"
  | empty => "Empty"
  | dimensionMismatch expected found =>
    s!"DimensionMismatch \x7b expected: {expected}, found: {found} \x7d"
  | noSuchAxis axis dim => s!"NoSuchAxis \x7b axis: {axis}, dim: {dim} \x7d"
  | interval cause => s!"Interval({cause.detail})"

/-- The result of an operation on a component, as one of an operation on a box. -/
def lift {α : Type} : Except IntervalError α → Except BoxError α
  | .ok a => .ok a
  | .error cause => .error (interval cause)

end BoxError

end Paving
