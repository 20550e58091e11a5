import Paving.Decimal.Shortest

/-!
# Causes of failure in interval operations

Each operation that has no meaningful result names its cause together with the
numbers that show it. The wording of a cause is given once, by `message`, with
numbers in plain style; `detail` spells out the cause and its numbers for
diagnostics.
-/

set_option autoImplicit false

namespace Paving

/-- Why an interval could not be built, measured or split. -/
inductive IntervalError where
  | reversedBounds (lb ub : Binary64)
  | nanBound
  | emptyDiameter
  | unboundedDiameter (lb ub : Binary64)
  | emptyMidpoint
  | undefinedMidpoint (lb ub : Binary64)
  | emptyBisection
  | degenerateBisection (value : Binary64)
  | bisectionPoint (point lb ub : Binary64)
deriving DecidableEq

namespace IntervalError

/-- The error comes from bounds that make no interval, not from an operation on
an interval. -/
def isBadBounds : IntervalError → Bool
  | reversedBounds _ _ => true
  | nanBound => true
  | _ => false

/-- The wording of a cause. -/
def message : IntervalError → String
  | reversedBounds lb ub =>
    s!"bounds in reverse order: [{lb.text .plain}, {ub.text .plain}]"
  | nanBound => "interval bound is not a number"
  | emptyDiameter => "diameter of an empty interval is undefined"
  | unboundedDiameter lb ub =>
    s!"cannot compute the diameter of [{lb.text .plain}, {ub.text .plain}] with infinite bounds"
  | emptyMidpoint => "midpoint of an empty interval is undefined"
  | undefinedMidpoint lb ub =>
    s!"undefined midpoint for [{lb.text .plain}, {ub.text .plain}]"
  | emptyBisection => "cannot bisect an empty interval"
  | degenerateBisection value =>
    s!"cannot bisect the degenerate interval [{value.text .plain}, {value.text .plain}]"
  | bisectionPoint point lb ub =>
    s!"bisection point {point.text .plain} not strictly inside [{lb.text .plain}, {ub.text .plain}]"

/-- A name followed by named numbers in braces. -/
def record (name : String) (fields : List (String × Binary64)) : String :=
  let written := fields.map fun (field, value) => s!"{field}: {value.text .explicit}"
  name ++ " \x7b " ++ ", ".intercalate written ++ " \x7d"

/-- The cause by name, with its numbers in explicit style. -/
def detail : IntervalError → String
  | reversedBounds lb ub => record "ReversedBounds" [("lb", lb), ("ub", ub)]
  | nanBound => "NanBound"
  | emptyDiameter => "EmptyDiameter"
  | unboundedDiameter lb ub => record "UnboundedDiameter" [("lb", lb), ("ub", ub)]
  | emptyMidpoint => "EmptyMidpoint"
  | undefinedMidpoint lb ub => record "UndefinedMidpoint" [("lb", lb), ("ub", ub)]
  | emptyBisection => "EmptyBisection"
  | degenerateBisection value => record "DegenerateBisection" [("value", value)]
  | bisectionPoint point lb ub =>
    record "BisectionPoint" [("point", point), ("lb", lb), ("ub", ub)]

end IntervalError

end Paving
