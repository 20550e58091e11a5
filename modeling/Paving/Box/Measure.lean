import Paving.Box.Basic

/-!
# Measuring and splitting boxes

The diameters of a box are those of its components. The widest and the narrowest
axis are the first ones whose diameter no other exceeds, or undercuts. A box is
split by splitting one component.
-/

set_option autoImplicit false

namespace Paving

namespace Box

/-! ## Diameters -/

/-- The diameters of the components, in order. -/
def diameters (b : Box) : Except BoxError (List Binary64) :=
  if b.isEmpty then .error .empty
  else BoxError.lift (b.components.mapM Interval.diam)

/-- The first best entry of a list whose entries are numbered from `i`, given the
best one before it. -/
def bestFrom (better : Binary64 → Binary64 → Bool) :
    Nat × Binary64 → Nat → List Binary64 → Nat × Binary64
  | best, _, [] => best
  | best, i, d :: ds =>
    bestFrom better (if better d best.2 then (i, d) else best) (i + 1) ds

/-- The first axis with the best diameter, and that diameter. -/
def extremeDiam (better : Binary64 → Binary64 → Bool) (b : Box) :
    Except BoxError (Nat × Binary64) := do
  match ← b.diameters with
  | [] => .error .dimension
  | d :: ds => return bestFrom better (0, d) 1 ds

/-- The axis and the diameter of the widest component. -/
def widestDiam (b : Box) : Except BoxError (Nat × Binary64) :=
  b.extremeDiam fun candidate best => decide (best < candidate)

/-- The axis and the diameter of the narrowest component. -/
def narrowestDiam (b : Box) : Except BoxError (Nat × Binary64) :=
  b.extremeDiam fun candidate best => decide (candidate < best)

/-- The first of the widest axes. -/
def widest (b : Box) : Except BoxError Nat :=
  b.widestDiam.map Prod.fst

/-- The first of the narrowest axes. -/
def narrowest (b : Box) : Except BoxError Nat :=
  b.narrowestDiam.map Prod.fst

/-- The largest diameter of a component. -/
def maxDiam (b : Box) : Except BoxError Binary64 :=
  b.widestDiam.map Prod.snd

/-- The smallest diameter of a component. -/
def minDiam (b : Box) : Except BoxError Binary64 :=
  b.narrowestDiam.map Prod.snd

/-! ## Midpoint and bisection -/

/-- The box whose components are the midpoints. -/
def mid (b : Box) : Except BoxError Box := do
  let centre (x : Interval) : Except IntervalError Interval := do
    Interval.point (← x.mid)
  ofIntervals (← BoxError.lift (b.components.mapM centre))

/-- The halves of the box, split on one axis at a point. -/
def bisectAt (b : Box) (axis : Nat) (point : Binary64) : Except BoxError (Box × Box) := do
  let x ← b.get axis
  let (lower, upper) ← BoxError.lift (x.bisectAt point)
  return (b.replace axis lower, b.replace axis upper)

/-- The halves of the box, split on one axis at the midpoint. -/
def bisectAxis (b : Box) (axis : Nat) : Except BoxError (Box × Box) := do
  let x ← b.get axis
  b.bisectAt axis (← BoxError.lift x.mid)

/-- The halves of the box, split on its widest axis at the midpoint. -/
def bisect (b : Box) : Except BoxError (Box × Box) := do
  b.bisectAxis (← b.widest)

end Box

end Paving
