import Paving.Box.Basic

/-!
# Events and observers

A search announces what it decides about each box. An observer receives the
events, in order, keeps a state of its own, and may answer with an action that
stops the search or discards the box.
-/

set_option autoImplicit false

namespace Paving

universe u

/-! ## Events and actions -/

/-- What the search decided about a box. The number counts the visited boxes,
this one included. -/
inductive Event where
  /-- The constraint with this index rules the box out. -/
  | pruned (box : Box) (constraint : Nat) (number : Nat)
  /-- The box is narrow enough to be a candidate. -/
  | accepted (box : Box) (number : Nat)
  /-- The box is about to be split on an axis. -/
  | bisecting (box : Box) (axis : Nat) (number : Nat)

namespace Event

/-- The box that the event is about. -/
def box : Event → Box
  | pruned b _ _ => b
  | accepted b _ => b
  | bisecting b _ _ => b

/-- The number of visited boxes at the event. -/
def number : Event → Nat
  | pruned _ _ n => n
  | accepted _ n => n
  | bisecting _ _ n => n

end Event

/-- What an observer can ask for. -/
inductive Action where
  /-- End the search with the candidates found so far. -/
  | stopEarly
  /-- Drop the box: an accepted one is not recorded, one to be split is not
  split. A pruned box is dropped anyway. -/
  | discard
deriving DecidableEq

/-! ## Observers -/

/-- An observer with states in `σ`: what it makes of an event, and its answer. -/
abbrev Observer (σ : Type u) : Type u :=
  σ → Event → σ × Option Action

namespace Observer

/-- The observer that never answers. -/
def silent : Observer Unit :=
  fun _ _ => ((), none)

end Observer

/-! ## Counting events -/

/-- The number of events of each kind. -/
structure Stats where
  pruned : Nat
  accepted : Nat
  bisected : Nat
deriving DecidableEq

namespace Stats

/-- No events. -/
def zero : Stats :=
  ⟨0, 0, 0⟩

/-- The number of events. -/
def total (s : Stats) : Nat :=
  s.pruned + s.accepted + s.bisected

/-- Counts an event. -/
def count (s : Stats) : Event → Stats
  | .pruned _ _ _ => { s with pruned := s.pruned + 1 }
  | .accepted _ _ => { s with accepted := s.accepted + 1 }
  | .bisecting _ _ _ => { s with bisected := s.bisected + 1 }

/-- The observer that counts and never answers. -/
def observer : Observer Stats :=
  fun s event => (s.count event, none)

end Stats

end Paving
