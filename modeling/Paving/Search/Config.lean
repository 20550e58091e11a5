import Paving.Binary64.Basic

/-!
# Settings of a search

A search is set up by the width below which a box is accepted, the number of
candidates to keep and what to do when there are more, an optional limit on the
number of visited boxes, the half that is explored first, and the use that is
made of constraints. A setting that makes no sense is refused when it is made,
so every `Config` is valid.
-/

set_option autoImplicit false

namespace Paving

/-- What happens when a box is accepted while the list of candidates is full. -/
inductive Overflow where
  /-- The search ends. -/
  | stop
  /-- The list grows beyond its capacity. -/
  | grow
deriving DecidableEq

/-- Which half of a bisected box is explored first. -/
inductive HalfOrder where
  | lowerFirst
  | upperFirst
deriving DecidableEq

/-- How constraints are used on a box. -/
inductive Pruning where
  /-- A box is dropped if it violates a constraint. -/
  | evaluate
  /-- A box is also narrowed by every constraint before its width is tested. -/
  | contract
deriving DecidableEq

/-- Why a setting was refused. -/
inductive ConfigError where
  | eps
  | capacity
deriving DecidableEq

namespace ConfigError

/-- The wording of a cause. -/
def message : ConfigError → String
  | eps => "eps must be finite and non-negative"
  | capacity => "capacity must be at least 1"

/-- The cause by name. -/
def detail : ConfigError → String
  | eps => "Eps"
  | capacity => "Capacity"

end ConfigError

/-- A width that a box can be compared with: finite and not negative. -/
def ValidTolerance (eps : Binary64) : Prop :=
  eps.isFinite = true ∧ ¬ eps < Binary64.zero

instance (eps : Binary64) : Decidable (ValidTolerance eps) :=
  inferInstanceAs (Decidable (eps.isFinite = true ∧ ¬ eps < Binary64.zero))

/-- The settings of a search. -/
structure Config where
  /-- A box is accepted when no component is wider than this. -/
  eps : Binary64
  eps_valid : ValidTolerance eps
  /-- The number of candidates to keep. -/
  capacity : Nat
  capacity_pos : 0 < capacity
  overflow : Overflow
  /-- The greatest number of boxes to visit, if there is one. -/
  maxBranchings : Option Nat
  order : HalfOrder
  pruning : Pruning

namespace Config

/-- The settings with a given tolerance: room for 1000 candidates, no limit, the
lower half first, and constraints that are only evaluated. -/
def ofEps (eps : Binary64) : Except ConfigError Config :=
  if h : ValidTolerance eps then
    .ok { eps := eps
          eps_valid := h
          capacity := 1000
          capacity_pos := by decide
          overflow := .stop
          maxBranchings := none
          order := .lowerFirst
          pruning := .evaluate }
  else .error .eps

/-- The tolerance `10^-4`, rounded to nearest. -/
def standardTolerance : Binary64 :=
  ⟨0x3f1a36e2eb1c432d⟩

/-- The settings with the standard tolerance. -/
def standard : Config where
  eps := standardTolerance
  eps_valid := by decide
  capacity := 1000
  capacity_pos := by decide
  overflow := .stop
  maxBranchings := none
  order := .lowerFirst
  pruning := .evaluate

/-- The settings with another capacity, which must not be zero. -/
def withCapacity (c : Config) (capacity : Nat) : Except ConfigError Config :=
  if h : 0 < capacity then .ok { c with capacity := capacity, capacity_pos := h }
  else .error .capacity

/-- Whether the limit forbids another visit after `visited` ones. -/
def limitReached (c : Config) (visited : Nat) : Bool :=
  match c.maxBranchings with
  | some limit => decide (limit ≤ visited)
  | none => false

/-- Whether a list of `recorded` candidates refuses another one. -/
def refuses (c : Config) (recorded : Nat) : Bool :=
  decide (c.capacity ≤ recorded) && decide (c.overflow = .stop)

end Config

end Paving
