import Paving.Binary64.Directed
import Paving.Binary64.Order
import Paving.Interval.Error

/-!
# Intervals

A closed interval of real numbers with binary64 bounds. A bound may be infinite
on its own side: `[-oo, 2]` and `[3, +oo]` are unbounded intervals. The empty
set is one distinguished value, both of whose bounds are negative infinity.

The type carries its invariant. Every pair of bounds that is not an admissible
interval, crossed or NaN bounds included, is turned into the empty interval by
`ofBounds`, the only way in which operations form new bounds.
-/

set_option autoImplicit false

namespace Paving

open Binary64

/-- Bounds of a non-empty interval: in order, the lower one below positive
infinity and the upper one above negative infinity. -/
def AdmissibleBounds (lb ub : Binary64) : Prop :=
  lb ≤ ub ∧ lb < posInf ∧ negInf < ub

instance (lb ub : Binary64) : Decidable (AdmissibleBounds lb ub) :=
  inferInstanceAs (Decidable (lb ≤ ub ∧ lb < posInf ∧ negInf < ub))

/-- A closed interval, or the empty set with both bounds at negative infinity. -/
structure Interval where
  lb : Binary64
  ub : Binary64
  valid : (lb = negInf ∧ ub = negInf) ∨ AdmissibleBounds lb ub
deriving DecidableEq

namespace Interval

/-! ## Construction -/

/-- The empty interval. -/
def empty : Interval :=
  ⟨negInf, negInf, .inl ⟨rfl, rfl⟩⟩

instance : Inhabited Interval :=
  ⟨empty⟩

/-- All reals, `[-oo, +oo]`. -/
def all : Interval :=
  ⟨negInf, posInf, .inr (by decide)⟩

/-- The point interval at zero. -/
def zero : Interval :=
  ⟨Binary64.zero, Binary64.zero, .inr (by decide)⟩

/-- The interval with the given bounds, or the empty one if they are crossed,
not numbers, or infinite on the wrong side. -/
def ofBounds (lb ub : Binary64) : Interval :=
  if h : AdmissibleBounds lb ub then ⟨lb, ub, .inr h⟩ else empty

/-- The interval `[lb, ub]`; NaN and crossed bounds are refused. -/
def of (lb ub : Binary64) : Except IntervalError Interval :=
  if lb.isNaN || ub.isNaN then .error .nanBound
  else if ub < lb then .error (.reversedBounds lb ub)
  else .ok (ofBounds lb ub)

/-- The interval `[value, value]`; a NaN is refused. -/
def point (value : Binary64) : Except IntervalError Interval :=
  of value value

/-! ## Replacing bounds -/

/-- The interval with another lower bound, empty if the bounds cross. -/
def setLower (x : Interval) (lb : Binary64) : Interval :=
  ofBounds lb x.ub

/-- The interval with another upper bound, empty if the bounds cross. -/
def setUpper (x : Interval) (ub : Binary64) : Interval :=
  ofBounds x.lb ub

/-! ## Tests -/

/-- The empty interval has no points. -/
def isEmpty (x : Interval) : Bool :=
  x.lb == negInf && x.ub == negInf

/-- A single point. -/
def isDegenerate (x : Interval) : Bool :=
  !x.isEmpty && x.lb == x.ub

/-- Non-empty with two finite bounds. -/
def isBounded (x : Interval) : Bool :=
  !x.isEmpty && x.lb.isFinite && x.ub.isFinite

/-- The number lies between the bounds. -/
def contains (x : Interval) (value : Binary64) : Bool :=
  !x.isEmpty && decide (x.lb ≤ value) && decide (value ≤ x.ub)

/-- Every point of `x` lies in `y`. -/
def isSubset (x y : Interval) : Bool :=
  x.isEmpty || (!y.isEmpty && decide (y.lb ≤ x.lb) && decide (x.ub ≤ y.ub))

instance : HasSubset Interval where
  Subset x y := x.isSubset y = true

instance (x y : Interval) : Decidable (x ⊆ y) :=
  inferInstanceAs (Decidable (x.isSubset y = true))

/-- Equality of bounds as numbers, so that the sign of a zero bound is ignored. -/
instance : BEq Interval where
  beq x y := x.lb == y.lb && x.ub == y.ub

/-! ## Set operations -/

/-- The intersection. -/
def inter (x y : Interval) : Interval :=
  if x.isEmpty || y.isEmpty then empty
  else ofBounds (larger x.lb y.lb) (smaller x.ub y.ub)

/-- The two intervals share a point. -/
def intersects (x y : Interval) : Bool :=
  !(x.inter y).isEmpty

/-- The least interval that includes both. -/
def hull (x y : Interval) : Interval :=
  if x.isEmpty then y
  else if y.isEmpty then x
  else ofBounds (smaller x.lb y.lb) (larger x.ub y.ub)

/-! ## Measures -/

/-- The width `ub - lb`, rounded up. -/
def diam (x : Interval) : Except IntervalError Binary64 :=
  if x.isEmpty then .error .emptyDiameter
  else if !x.isBounded then .error (.unboundedDiameter x.lb x.ub)
  else .ok (Direction.up.sub x.ub x.lb)

/-- The midpoint of two finite bounds. Their sum is halved, unless it overflows:
then the halves are added. -/
def midpoint (lb ub : Binary64) : Binary64 :=
  let m := half * (lb + ub)
  if m.isFinite then m else half * lb + half * ub

/-- The midpoint. An interval without bounds has midpoint zero, and one that is
unbounded on one side the finite number farthest out on that side, provided that
the other bound leaves room for it. -/
def mid (x : Interval) : Except IntervalError Binary64 :=
  if x.isEmpty then .error .emptyMidpoint
  else
    match x.lb == negInf, x.ub == posInf with
    | true, true => .ok Binary64.zero
    | true, false =>
      if x.ub == -maxFinite then .error (.undefinedMidpoint x.lb x.ub) else .ok (-maxFinite)
    | false, true =>
      if x.lb == maxFinite then .error (.undefinedMidpoint x.lb x.ub) else .ok maxFinite
    | false, false => .ok (midpoint x.lb x.ub)

/-! ## Bisection -/

/-- The lower half at a point strictly inside the bounds is an interval. -/
theorem admissible_lower {lb ub point : Binary64} (h : lb < point ∧ point < ub) :
    AdmissibleBounds lb point :=
  ⟨Binary64.le_of_lt h.1, Binary64.lt_of_lt_of_le h.1 (le_posInf h.1.2.1),
    Binary64.lt_of_le_of_lt (negInf_le h.1.1) h.1⟩

/-- The upper half at a point strictly inside the bounds is an interval. -/
theorem admissible_upper {lb ub point : Binary64} (h : lb < point ∧ point < ub) :
    AdmissibleBounds point ub :=
  ⟨Binary64.le_of_lt h.2, Binary64.lt_of_lt_of_le h.2 (le_posInf h.2.2.1),
    Binary64.lt_of_le_of_lt (negInf_le h.2.1) h.2⟩

/-- The halves `[lb, point]` and `[point, ub]`. The point must lie strictly
inside; it belongs to both halves. -/
def bisectAt (x : Interval) (point : Binary64) : Except IntervalError (Interval × Interval) :=
  if x.isEmpty then .error .emptyBisection
  else if x.lb == x.ub then .error (.degenerateBisection x.lb)
  else if h : x.lb < point ∧ point < x.ub then
    .ok (⟨x.lb, point, .inr (admissible_lower h)⟩, ⟨point, x.ub, .inr (admissible_upper h)⟩)
  else .error (.bisectionPoint point x.lb x.ub)

/-- The halves at the midpoint. -/
def bisect (x : Interval) : Except IntervalError (Interval × Interval) := do
  x.bisectAt (← x.mid)

end Interval

end Paving
