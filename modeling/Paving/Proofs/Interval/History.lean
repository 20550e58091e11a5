import Paving.Proofs.Interval.Emptiness

/-!
# Histories of intervals

`Obtainable` lists the ways in which an interval can come about: the constructors and the
replacement of bounds, with arbitrary numbers, the set operations, bisection, and the forward
and backward operators. A bound is never taken over as it is: `ofBounds` decides whether two
bounds make an interval, and bisection has checked it before. So the bounds that histories lead
to are those of the empty interval and the admissible ones, and all of these
(`exists_obtainable_iff`).

That a history never leads to crossed bounds would be cheap if operators answered with the
empty interval in too many cases. `operators_keep_intervals` says when they do.
-/

set_option autoImplicit false

namespace Paving

namespace Interval

open Binary64

/-! ## What can be obtained -/

/-- The intervals that a sequence of calls leads to. A call that fails leads to none. -/
inductive Obtainable : Interval → Prop
  | of {lb ub : Binary64} {x : Interval} (h : Interval.of lb ub = .ok x) : Obtainable x
  | point {v : Binary64} {x : Interval} (h : Interval.point v = .ok x) : Obtainable x
  | all : Obtainable Interval.all
  | zero : Obtainable Interval.zero
  | empty : Obtainable Interval.empty
  | setLower {x : Interval} (hx : Obtainable x) (lb : Binary64) : Obtainable (x.setLower lb)
  | setUpper {x : Interval} (hx : Obtainable x) (ub : Binary64) : Obtainable (x.setUpper ub)
  | setBounds (lb ub : Binary64) : Obtainable (ofBounds lb ub)
  | inter {x y : Interval} (hx : Obtainable x) (hy : Obtainable y) : Obtainable (x.inter y)
  | hull {x y : Interval} (hx : Obtainable x) (hy : Obtainable y) : Obtainable (x.hull y)
  | bisectAt {x lower upper half : Interval} (hx : Obtainable x) (point : Binary64)
      (h : x.bisectAt point = .ok (lower, upper)) (hhalf : half = lower ∨ half = upper) :
      Obtainable half
  | bisect {x lower upper half : Interval} (hx : Obtainable x)
      (h : x.bisect = .ok (lower, upper)) (hhalf : half = lower ∨ half = upper) :
      Obtainable half
  | neg {x : Interval} (hx : Obtainable x) : Obtainable (-x)
  | add {x y : Interval} (hx : Obtainable x) (hy : Obtainable y) : Obtainable (x + y)
  | sub {x y : Interval} (hx : Obtainable x) (hy : Obtainable y) : Obtainable (x - y)
  | scale {x : Interval} (hx : Obtainable x) (a : Binary64) : Obtainable (x.scale a)
  | sqr {x : Interval} (hx : Obtainable x) : Obtainable x.sqr
  | sqrt {x : Interval} (hx : Obtainable x) : Obtainable x.sqrt
  | negBackward {y x : Interval} (hy : Obtainable y) (hx : Obtainable x) :
      Obtainable (negBackward y x)
  | addBackward {y x₁ x₂ x : Interval} (hy : Obtainable y) (h₁ : Obtainable x₁)
      (h₂ : Obtainable x₂)
      (hx : x = (addBackward y x₁ x₂).1 ∨ x = (addBackward y x₁ x₂).2) : Obtainable x
  | subBackward {y x₁ x₂ x : Interval} (hy : Obtainable y) (h₁ : Obtainable x₁)
      (h₂ : Obtainable x₂)
      (hx : x = (subBackward y x₁ x₂).1 ∨ x = (subBackward y x₁ x₂).2) : Obtainable x
  | scaleBackward {y x : Interval} (a : Binary64) (hy : Obtainable y) (hx : Obtainable x) :
      Obtainable (scaleBackward a y x)
  | sqrBackward {y x : Interval} (hy : Obtainable y) (hx : Obtainable x) :
      Obtainable (sqrBackward y x)
  | sqrtBackward {y x : Interval} (hy : Obtainable y) (hx : Obtainable x) :
      Obtainable (sqrtBackward y x)

/-- Admissible bounds are accepted and taken over. -/
theorem of_eq_ok_of_admissible {lb ub : Binary64} (h : AdmissibleBounds lb ub) :
    Interval.of lb ub = .ok ⟨lb, ub, .inr h⟩ := by
  obtain ⟨hlb, hub, hle⟩ := h.1
  have hnot : ¬ ub < lb := by
    rintro ⟨-, -, hlt⟩
    omega
  rw [Interval.of, hlb, hub, Bool.or_self, if_neg Bool.false_ne_true, if_neg hnot, ofBounds,
    dif_pos h]

/-- Histories lead to the bounds of the empty interval and to all pairs of numbers in order
that are not infinite on the wrong side, and to no others. -/
theorem exists_obtainable_iff (lb ub : Binary64) :
    (∃ x, Obtainable x ∧ x.lb = lb ∧ x.ub = ub) ↔
      (lb = negInf ∧ ub = negInf) ∨
        (lb.isNaN = false ∧ ub.isNaN = false ∧ lb ≤ ub ∧ lb < posInf ∧ negInf < ub) := by
  constructor
  · rintro ⟨x, -, rfl, rfl⟩
    rcases x.valid with hempty | hadm
    · exact .inl hempty
    · exact .inr ⟨hadm.1.1, hadm.1.2.1, hadm⟩
  · rintro (⟨rfl, rfl⟩ | ⟨-, -, hadm⟩)
    · exact ⟨Interval.empty, .empty, rfl, rfl⟩
    · exact ⟨⟨lb, ub, .inr hadm⟩, .of (of_eq_ok_of_admissible hadm), rfl, rfl⟩

/-- Whatever the history, with arbitrary numbers as arguments, an interval is the empty one
with both bounds at negative infinity, or its bounds are numbers in order, the lower one below
positive infinity and the upper one above negative infinity. No forward operator loses an
operand: a reflection, sum, difference, square or product with a finite number is empty only if
an operand is, and a square root only if the operand is empty or has no point that is not
negative. -/
theorem operators_keep_intervals (x y : Interval) (a : Binary64) :
    (∀ lb ub : Binary64, (∃ z, Obtainable z ∧ z.lb = lb ∧ z.ub = ub) ↔
        (lb = negInf ∧ ub = negInf) ∨
          (lb.isNaN = false ∧ ub.isNaN = false ∧ lb ≤ ub ∧ lb < posInf ∧ negInf < ub)) ∧
      (-x = empty ↔ x = empty) ∧
      (x + y = empty ↔ x = empty ∨ y = empty) ∧
      (x - y = empty ↔ x = empty ∨ y = empty) ∧
      (x.scale a = empty ↔ x = empty ∨ a.isFinite = false) ∧
      (x.sqr = empty ↔ x = empty) ∧
      (x.sqrt = empty ↔ x = empty ∨ x.ub < Binary64.zero) := by
  simp only [eq_empty_iff, isEmpty_neg, isEmpty_add, isEmpty_sub, isEmpty_scale, isEmpty_sqr,
    isEmpty_sqrt, Bool.or_eq_true, Bool.not_eq_true', decide_eq_true_eq, and_true]
  exact exists_obtainable_iff

end Interval

end Paving
