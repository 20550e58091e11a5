import Paving.Interval.Basic
import Paving.Box.Error

/-!
# Boxes

A box is a product of intervals, one for each axis, with at least one axis. It is
empty as soon as one component is, and then all its components are empty: the
type carries this invariant, and `ofComponents` restores it, so that every
operation that touches a component keeps it.
-/

set_option autoImplicit false

namespace Paving

/-- A product of at least one interval; either all components are empty or none. -/
structure Box where
  components : List Interval
  nonempty : components ≠ []
  uniform : ∀ x ∈ components, ∀ y ∈ components, x.isEmpty = y.isEmpty
deriving DecidableEq

namespace Box

/-! ## Construction -/

/-- The number of axes. -/
def dim (b : Box) : Nat :=
  b.components.length

/-- The box with the given components, all of them emptied if one is empty. -/
def ofComponents (xs : List Interval) (h : xs ≠ []) : Box :=
  if hany : xs.any Interval.isEmpty then
    { components := xs.map fun _ => Interval.empty
      nonempty := by simpa using h
      uniform := by
        intro x hx y hy
        obtain ⟨_, _, rfl⟩ := List.mem_map.1 hx
        obtain ⟨_, _, rfl⟩ := List.mem_map.1 hy
        rfl }
  else
    { components := xs
      nonempty := h
      uniform := by
        intro x hx y hy
        have hnone : ∀ z ∈ xs, z.isEmpty = false := by simpa using hany
        rw [hnone x hx, hnone y hy] }

/-- The box with the given components; there must be one. -/
def ofIntervals (xs : List Interval) : Except BoxError Box :=
  if h : xs = [] then .error .dimension else .ok (ofComponents xs h)

/-- The box with the given pairs of bounds. -/
def ofBounds (bounds : List (Binary64 × Binary64)) : Except BoxError Box := do
  ofIntervals (← BoxError.lift (bounds.mapM fun (lb, ub) => Interval.of lb ub))

/-- The box of a given dimension with equal components. -/
def filled (dim : Nat) (x : Interval) : Except BoxError Box :=
  ofIntervals (List.replicate dim x)

/-- The unbounded box of a given dimension. -/
def all (dim : Nat) : Except BoxError Box :=
  filled dim Interval.all

/-! ## Tests -/

/-- A box is empty when its first component is; the others then are too. -/
def isEmpty (b : Box) : Bool :=
  (b.components.head b.nonempty).isEmpty

/-- Equality of all components as numbers. -/
instance : BEq Box where
  beq a b := a.components == b.components

/-- The box `a` lies in `b`: equal dimensions, and each component of `a` lies in
that of `b`. -/
instance : HasSubset Box where
  Subset a b := a.dim = b.dim ∧
    ∀ (i : Nat) (x y : Interval), a.components[i]? = some x → b.components[i]? = some y → x ⊆ y

/-- Refuses a dimension other than that of the box. -/
def checkDim (b : Box) (found : Nat) : Except BoxError Unit :=
  if found = b.dim then .ok () else .error (.dimensionMismatch b.dim found)

/-- The point lies in the box. -/
def containsPoint (b : Box) (point : List Binary64) : Except BoxError Bool := do
  b.checkDim point.length
  return !b.isEmpty && (b.components.zip point).all fun (x, v) => x.contains v

/-! ## Components -/

/-- The component on an axis. -/
def get (b : Box) (axis : Nat) : Except BoxError Interval :=
  match b.components[axis]? with
  | some x => .ok x
  | none => .error (.noSuchAxis axis b.dim)

/-- The box with all components empty. -/
def toEmpty (b : Box) : Box :=
  { components := b.components.map fun _ => Interval.empty
    nonempty := by simpa using b.nonempty
    uniform := by
      intro x hx y hy
      obtain ⟨_, _, rfl⟩ := List.mem_map.1 hx
      obtain ⟨_, _, rfl⟩ := List.mem_map.1 hy
      rfl }

/-- The box with the component on one axis replaced. An axis outside the box
changes nothing. -/
def replace (b : Box) (axis : Nat) (x : Interval) : Box :=
  ofComponents (b.components.set axis x) (by simpa using b.nonempty)

/-- The box with the component on one axis intersected with `x`. An axis outside
the box changes nothing. -/
def narrow (b : Box) (axis : Nat) (x : Interval) : Box :=
  ofComponents (b.components.modify axis (·.inter x)) (by
    intro h
    have hlen := congrArg List.length h
    simp only [List.length_modify, List.length_nil] at hlen
    exact b.nonempty (List.length_eq_zero_iff.1 hlen))

/-- Replaces the component on an axis. An empty box stays empty. -/
def set (b : Box) (axis : Nat) (x : Interval) : Except BoxError Box :=
  if b.isEmpty then .ok b
  else if axis < b.dim then .ok (b.replace axis x)
  else .error (.noSuchAxis axis b.dim)

/-- Intersects the component on an axis, and says whether the box is non-empty
afterwards. An empty box stays empty. -/
def interAxis (b : Box) (axis : Nat) (x : Interval) : Except BoxError (Box × Bool) :=
  if b.isEmpty then .ok (b, false)
  else if axis < b.dim then
    let narrowed := b.narrow axis x
    .ok (narrowed, !narrowed.isEmpty)
  else .error (.noSuchAxis axis b.dim)

/-! ## Set operations -/

/-- The intersection with a box of the same dimension, and whether it is
non-empty. -/
def inter (a b : Box) : Except BoxError (Box × Bool) := do
  a.checkDim b.dim
  let met ← ofIntervals (List.zipWith Interval.inter a.components b.components)
  return (met, !met.isEmpty)

/-- The least box that includes both. -/
def hull (a b : Box) : Except BoxError Box := do
  a.checkDim b.dim
  if a.isEmpty then return b
  if b.isEmpty then return a
  ofIntervals (List.zipWith Interval.hull a.components b.components)

end Box

end Paving
