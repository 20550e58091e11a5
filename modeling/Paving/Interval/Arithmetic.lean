import Paving.Interval.Basic

/-!
# Interval arithmetic

The forward operators. A result is to hold the exact result for every choice of
points from the operands, so its lower bound is rounded down and its upper bound
up. It does wherever directed rounding gives bounds, and can miss an exact result
where an error term is lost. An empty operand gives the empty interval.

A lower bound is never positive infinity and an upper bound never negative
infinity, so the sums of bounds below are always defined.
-/

set_option autoImplicit false

namespace Paving

namespace Interval

open Binary64 Direction

/-- The reflection `-x`. -/
def neg (x : Interval) : Interval :=
  if x.isEmpty then empty else ofBounds (-x.ub) (-x.lb)

instance : Neg Interval where
  neg := neg

/-- The sum `x + y`. -/
def add (x y : Interval) : Interval :=
  if x.isEmpty || y.isEmpty then empty
  else ofBounds (down.add x.lb y.lb) (up.add x.ub y.ub)

instance : Add Interval where
  add := add

/-- The difference `x - y`. -/
def sub (x y : Interval) : Interval :=
  if x.isEmpty || y.isEmpty then empty
  else ofBounds (down.sub x.lb y.ub) (up.sub x.ub y.lb)

instance : Sub Interval where
  sub := sub

/-- The product `a * x` with a number. A factor that is not finite gives the
empty interval. -/
def scale (x : Interval) (a : Binary64) : Interval :=
  if x.isEmpty || !a.isFinite then empty
  else if a == Binary64.zero then Interval.zero
  else if Binary64.zero < a then ofBounds (down.mul a x.lb) (up.mul a x.ub)
  else ofBounds (down.mul a x.ub) (up.mul a x.lb)

/-- The quotient `x / a` by a number. A divisor that is zero or not finite gives
the empty interval. -/
def unscale (x : Interval) (a : Binary64) : Interval :=
  if x.isEmpty || !a.isFinite || a == Binary64.zero then empty
  else if Binary64.zero < a then ofBounds (down.div x.lb a) (up.div x.ub a)
  else ofBounds (down.div x.ub a) (up.div x.lb a)

/-- The squares of the points of `x`. -/
def sqr (x : Interval) : Interval :=
  if x.isEmpty then empty
  else if x.ub < Binary64.zero then ofBounds (down.mul x.ub x.ub) (up.mul x.lb x.lb)
  else if Binary64.zero < x.lb then ofBounds (down.mul x.lb x.lb) (up.mul x.ub x.ub)
  else
    let reach := larger (-x.lb) x.ub
    ofBounds Binary64.zero (up.mul reach reach)

/-- The square roots of the points of `x` that are not negative. -/
def sqrt (x : Interval) : Interval :=
  if x.isEmpty || decide (x.ub < Binary64.zero) then empty
  else
    let lb := if x.lb < Binary64.zero then Binary64.zero else down.sqrt x.lb
    ofBounds lb (up.sqrt x.ub)

end Interval

end Paving
