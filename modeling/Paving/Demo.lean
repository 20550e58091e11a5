import Paving.Constraint

/-!
# Demonstration problems

Three problems about circles in the square `[-3, 3]^2`.
-/

set_option autoImplicit false

namespace Paving

/-- A problem over the square `[-3, 3]^2`. -/
inductive Scenario where
  /-- The unit circle and the circle of radius 2.5 around `(2, 1)`. -/
  | intersecting
  /-- The unit circles around `(0, 0)` and `(2, 0)`, which touch. -/
  | tangent
  /-- The equation `x^2 + y^2 + 1 = 0`, which no real point satisfies. -/
  | noSolution
deriving DecidableEq

namespace Scenario

/-- The left side of `(x - cx)^2 + (y - cy)^2 - r^2 = 0`. -/
def circle (cx cy r : Binary64) : Expr :=
  (Expr.var 0 - .value cx).sqr + (Expr.var 1 - .value cy).sqr - .value (r * r)

/-- The equations of a problem. -/
def conditions : Scenario → List Condition
  | intersecting => [.equation (circle 0.0 0.0 1.0), .equation (circle 2.0 1.0 2.5)]
  | tangent => [.equation (circle 0.0 0.0 1.0), .equation (circle 2.0 0.0 1.0)]
  | noSolution => [.equation ((Expr.var 0).sqr + (Expr.var 1).sqr + .value 1.0)]

/-- The square from which every search starts. -/
def initialBox : Box :=
  let side := Interval.ofBounds (-3.0) 3.0
  .ofComponents [side, side] (by simp)

/-- The name of a problem on the command line. -/
def argument : Scenario → String
  | intersecting => "intersecting"
  | tangent => "tangent"
  | noSolution => "none"

/-- The name of a problem in the log. -/
def logName : Scenario → String
  | intersecting => "Intersecting"
  | tangent => "Tangent"
  | noSolution => "NoSolution"

/-- All problems. -/
def all : List Scenario :=
  [intersecting, tangent, noSolution]

end Scenario

end Paving
