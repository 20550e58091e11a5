import Paving.Box.Basic

/-!
# Changing a box in place

A call that changes a box in place reads the box, may replace it, and answers or fails. What it
has put in the place of the box stays there when it fails later on, so that a call has to look
for what can go wrong before it changes anything. `InPlace.on` runs a call and returns the box
beside the answer.

Two boxes are intersected axis by axis, up to the first axis on which nothing is left.
-/

set_option autoImplicit false

namespace Paving

/-- A call on a box in its place. -/
abbrev InPlace (α : Type) : Type :=
  ExceptT BoxError (StateM Box) α

namespace InPlace

/-- What a call on `b` answers, and the box that then stands in the place of `b`. -/
def on {α : Type} (call : InPlace α) (b : Box) : Except BoxError α × Box :=
  (call.run.run b).run

/-- Empties the box. -/
def toEmpty : InPlace Unit :=
  modify Box.toEmpty

/-- Changes the component on an axis. An empty box stays as it is, with the answer `kept`, and its
axes are not looked for. -/
def onAxis {α : Type} (axis : Nat) (kept : α) (change : InPlace α) : InPlace α := do
  let b ← get
  if b.isEmpty then return kept
  if b.dim ≤ axis then throw (.noSuchAxis axis b.dim)
  change

/-- Replaces the component on an axis. -/
def set (axis : Nat) (x : Interval) : InPlace Unit :=
  onAxis axis () (modify (·.replace axis x))

/-- Intersects the component on an axis, and says whether the box is non-empty afterwards. -/
def interAxis (axis : Nat) (x : Interval) : InPlace Bool :=
  onAxis axis false do
    modify (·.narrow axis x)
    return !(← get).isEmpty

/-- Intersects the components from an axis on with the given intervals, one after the other.
The one that empties the box is the last. -/
def interFrom : Nat → List Interval → InPlace Bool
  | _, [] => return true
  | axis, x :: xs => do
    if ← interAxis axis x then interFrom (axis + 1) xs else return false

/-- Intersects the box with a box of the same dimension, and says whether it is non-empty
afterwards. -/
def inter (other : Box) : InPlace Bool := do
  let b ← get
  b.checkDim other.dim
  if other.isEmpty then
    toEmpty
    return false
  interFrom 0 other.components

/-- Puts what a function makes of the box in its place, and answers what the function says of
it. -/
def apply (f : Box → Box × Bool) : InPlace Bool :=
  modifyGet fun b => (f b).swap

end InPlace

end Paving
