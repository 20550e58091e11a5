import Paving.Proofs.Box.Points
import Paving.Proofs.Expr.Shape

/-!
# What constraints promise

A constraint is sound for a set of points if it rules out only boxes without a
point of the set and keeps the points of the set when it narrows a box
(`Constraint.SoundFor`). The kinds of constraints that are provided are collected
in `Constraint.Provided`: all of them narrow boxes, whatever functions they are
made from, and what they let pass is not empty.
-/

set_option autoImplicit false

namespace Paving

namespace Constraint

/-! ## Provided kinds -/

/-- The provided kinds of constraints: an equation over an expression, an equation
over a function known through its enclosures, and a bare test. -/
inductive Provided : Constraint → Prop
  | expression (e : Expr) : Provided (equation (.ofExpr e))
  | enclosure (eval : Box → Interval) : Provided (equation (.ofEval eval))
  | test (violated : Box → Bool) : Provided (ofTest violated)

theorem Provided.narrows {k : Constraint} (h : k.Provided) : k.Narrows := by
  cases h with
  | expression e => exact narrows_equation_ofExpr e
  | enclosure eval => exact narrows_equation_ofEval eval
  | test violated => exact narrows_ofTest violated

/-- A box that a provided constraint lets pass is not empty. -/
theorem Provided.contract_not_isEmpty {k : Constraint} (h : k.Provided) {b : Box}
    (hpass : (k.contract b).2 = true) : (k.contract b).1.isEmpty = false := by
  cases h with
  | expression e =>
    have hflag : Box.Flagged (e.project b Interval.zero) := e.flagged_project b Interval.zero
    rw [Box.Flagged] at hflag
    have hnonempty : (e.project b Interval.zero).2 = true := hpass
    rwa [hflag, Bool.not_eq_true'] at hnonempty
  | enclosure eval =>
    have hflag := Expr.flagged_ofEval eval b Interval.zero
    rw [Box.Flagged] at hflag
    have hnonempty : ((InclusionFunction.ofEval eval).project b Interval.zero).2 = true := hpass
    rwa [hflag, Bool.not_eq_true'] at hnonempty
  | test violated =>
    have hboth : (!b.isEmpty && !violated b) = true := hpass
    rw [Bool.and_eq_true, Bool.not_eq_true'] at hboth
    exact hboth.1

/-! ## Soundness -/

/-- The constraint is sound for the points that satisfy it: it rules out no box
with such a point, and narrowing keeps them all and reports an empty box only if
there were none. -/
structure SoundFor (k : Constraint) (satisfying : Set (List ℝ)) : Prop where
  violated_sound : ∀ b : Box, k.violated b = true → ∀ p ∈ b, p ∉ satisfying
  contract_keeps : ∀ b : Box, ∀ p ∈ b, p ∈ satisfying → p ∈ (k.contract b).1
  contract_refuses : ∀ b : Box, (k.contract b).2 = false → ∀ p ∈ b, p ∉ satisfying

section Sound

variable {k : Constraint} {satisfying : Set (List ℝ)} {b : Box} {p : List ℝ}

theorem SoundFor.not_violated (h : k.SoundFor satisfying) (hb : p ∈ b) (hp : p ∈ satisfying) :
    k.violated b = false := by
  rw [← Bool.not_eq_true]
  intro hv
  exact h.violated_sound b hv p hb hp

theorem SoundFor.keeps (h : k.SoundFor satisfying) (hb : p ∈ b) (hp : p ∈ satisfying) :
    Box.Keeps (k.contract b) p := by
  refine ⟨h.contract_keeps b p hb hp, ?_⟩
  rw [← Bool.not_eq_false]
  intro hf
  exact h.contract_refuses b hf p hb hp

end Sound

end Constraint

/-- The problem of a list of provided constraints. -/
def Problem.ofProvided (cs : List Constraint) (h : ∀ k ∈ cs, k.Provided) : Problem where
  constraints := cs
  narrows := fun k hk => (h k hk).narrows

end Paving
