import Paving.Constraint
import Paving.Proofs.Binary64.Magnitudes
import Paving.Proofs.Expr.Enclosure

/-!
# Expressions at safe magnitudes

An interval is safe if both its bounds are, and no operator is misled on safe
intervals and factors. So if the factors of an expression and all the intervals that
are computed on the way are safe, its evaluation over a box encloses every exact value
at a point of the box (`eval_encloses_of_safe`), and its projection onto a target
removes no point with an exact value in the target (`project_keeps_of_safe`).

The intervals on the way are those that the code computes. For an evaluation they are
the values of all subexpressions. For a projection they are collected over the nodes
it reaches: the values of the subexpressions over the box of the node, the target met
with the value of the node, and the results of the backward operator.
-/

set_option autoImplicit false

namespace Paving

/-! ## Safe intervals -/

namespace Interval

/-- Both bounds are safe. -/
def Safe (x : Interval) : Prop :=
  x.lb.Safe ∧ x.ub.Safe

instance (x : Interval) : Decidable x.Safe :=
  inferInstanceAs (Decidable (x.lb.Safe ∧ x.ub.Safe))

section Roundings

variable {x y x₁ x₂ : Interval} {a : Binary64}

theorem reliable_pair {r r' : Rounding} (h : ¬ r.Misled) (h' : ¬ r'.Misled) :
    Reliable [r, r'] := by
  intro s hs
  rcases List.mem_pair.1 hs with rfl | rfl
  · exact h
  · exact h'

theorem reliable_addRoundings (hx : x.Safe) (hy : y.Safe) : Reliable (addRoundings x y) :=
  reliable_pair (Rounding.not_misled_sum hx.1 hy.1) (Rounding.not_misled_sum hx.2 hy.2)

theorem reliable_subRoundings (hx : x.Safe) (hy : y.Safe) : Reliable (subRoundings x y) :=
  reliable_pair (Rounding.not_misled_sum hx.1 hy.2.neg) (Rounding.not_misled_sum hx.2 hy.1.neg)

theorem reliable_scaleRoundings (ha : a.Safe) (hx : x.Safe) : Reliable (scaleRoundings x a) := by
  rw [scaleRoundings]
  split
  · exact reliable_pair (Rounding.not_misled_product ha hx.1) (Rounding.not_misled_product ha hx.2)
  · exact reliable_pair (Rounding.not_misled_product ha hx.2) (Rounding.not_misled_product ha hx.1)

theorem reliable_unscaleRoundings (hx : x.Safe) : Reliable (unscaleRoundings x a) := by
  rw [unscaleRoundings]
  split
  · exact reliable_pair (Rounding.not_misled_quotient hx.1) (Rounding.not_misled_quotient hx.2)
  · exact reliable_pair (Rounding.not_misled_quotient hx.2) (Rounding.not_misled_quotient hx.1)

theorem reliable_sqrRoundings (hx : x.Safe) : Reliable (sqrRoundings x) := by
  have hreach : (Binary64.larger (-x.lb) x.ub).Safe := by
    rw [Binary64.larger]
    split
    · exact hx.2
    · exact hx.1.neg
  rw [sqrRoundings]
  split
  · exact reliable_pair (Rounding.not_misled_product hx.2 hx.2)
      (Rounding.not_misled_product hx.1 hx.1)
  · split
    · exact reliable_pair (Rounding.not_misled_product hx.1 hx.1)
        (Rounding.not_misled_product hx.2 hx.2)
    · intro r hr
      rw [List.mem_singleton.1 hr]
      exact Rounding.not_misled_product hreach hreach

theorem reliable_sqrtRoundings (hx : x.Safe) : Reliable (sqrtRoundings x) :=
  reliable_pair (Rounding.not_misled_root hx.1) (Rounding.not_misled_root hx.2)

theorem reliable_addBackwardRoundings (hy : y.Safe) (hx₂ : x₂.Safe)
    (hfirst : (addBackward y x₁ x₂).1.Safe) : Reliable (addBackwardRoundings y x₁ x₂) :=
  reliable_append.2 ⟨reliable_subRoundings hy hx₂, reliable_subRoundings hy hfirst⟩

theorem reliable_subBackwardRoundings (hy : y.Safe) (hx₂ : x₂.Safe)
    (hfirst : (subBackward y x₁ x₂).1.Safe) : Reliable (subBackwardRoundings y x₁ x₂) :=
  reliable_append.2 ⟨reliable_addRoundings hy hx₂, reliable_subRoundings hfirst hy⟩

end Roundings

end Interval

namespace Expr

/-! ## Evaluation -/

/-- The subexpressions of an expression, itself included. -/
def subexpressions : Expr → List Expr
  | var axis => [var axis]
  | const c => [const c]
  | neg e => neg e :: e.subexpressions
  | add e₁ e₂ => add e₁ e₂ :: (e₁.subexpressions ++ e₂.subexpressions)
  | sub e₁ e₂ => sub e₁ e₂ :: (e₁.subexpressions ++ e₂.subexpressions)
  | scale a e => scale a e :: e.subexpressions
  | sqr e => sqr e :: e.subexpressions
  | sqrt e => sqrt e :: e.subexpressions

/-- The factors that occur in an expression. -/
def factors : Expr → List Binary64
  | var _ => []
  | const _ => []
  | neg e => e.factors
  | add e₁ e₂ => e₁.factors ++ e₂.factors
  | sub e₁ e₂ => e₁.factors ++ e₂.factors
  | scale a e => a :: e.factors
  | sqr e => e.factors
  | sqrt e => e.factors

/-- Every factor is finite and safe. -/
def SafeFactors (e : Expr) : Prop :=
  ∀ a ∈ e.factors, a.isFinite = true ∧ a.Safe

/-- The values of all subexpressions over a box are safe. -/
def SafeEvaluation (e : Expr) (b : Box) : Prop :=
  ∀ f ∈ e.subexpressions, (f.eval b).Safe

instance (e : Expr) : Decidable e.SafeFactors :=
  inferInstanceAs (Decidable (∀ a ∈ e.factors, a.isFinite = true ∧ a.Safe))

instance (e : Expr) (b : Box) : Decidable (e.SafeEvaluation b) :=
  inferInstanceAs (Decidable (∀ f ∈ e.subexpressions, (f.eval b).Safe))

theorem self_mem_subexpressions (e : Expr) : e ∈ e.subexpressions := by
  cases e with
  | var _ | const _ => exact List.mem_singleton_self _
  | neg _ | sqr _ | sqrt _ => exact List.mem_cons_self
  | add _ _ | sub _ _ | scale _ _ => exact List.mem_cons_self

/-- No rounding of an evaluation is misled when the values of the subexpressions are
safe. -/
theorem reliable_rangeRoundings {e : Expr} {xs : List Interval} (hfactors : e.SafeFactors)
    (h : ∀ f ∈ e.subexpressions, (f.range xs).Safe) : Reliable (e.rangeRoundings xs) := by
  induction e with
  | var _ | const _ => exact List.forall_mem_nil _
  | neg e ih =>
    rw [subexpressions, List.forall_mem_cons] at h
    exact ih hfactors h.2
  | add e₁ e₂ ih₁ ih₂ =>
    rw [SafeFactors, factors, List.forall_mem_append] at hfactors
    rw [subexpressions, List.forall_mem_cons, List.forall_mem_append] at h
    obtain ⟨-, h₁, h₂⟩ := h
    rw [rangeRoundings, reliable_append, reliable_append]
    refine ⟨⟨ih₁ hfactors.1 h₁, ih₂ hfactors.2 h₂⟩, ?_⟩
    exact Interval.reliable_addRoundings (h₁ e₁ e₁.self_mem_subexpressions)
      (h₂ e₂ e₂.self_mem_subexpressions)
  | sub e₁ e₂ ih₁ ih₂ =>
    rw [SafeFactors, factors, List.forall_mem_append] at hfactors
    rw [subexpressions, List.forall_mem_cons, List.forall_mem_append] at h
    obtain ⟨-, h₁, h₂⟩ := h
    rw [rangeRoundings, reliable_append, reliable_append]
    refine ⟨⟨ih₁ hfactors.1 h₁, ih₂ hfactors.2 h₂⟩, ?_⟩
    exact Interval.reliable_subRoundings (h₁ e₁ e₁.self_mem_subexpressions)
      (h₂ e₂ e₂.self_mem_subexpressions)
  | scale a e ih =>
    rw [SafeFactors, factors, List.forall_mem_cons] at hfactors
    rw [subexpressions, List.forall_mem_cons] at h
    rw [rangeRoundings, reliable_append]
    refine ⟨ih hfactors.2 h.2, ?_⟩
    exact Interval.reliable_scaleRoundings hfactors.1.2 (h.2 e e.self_mem_subexpressions)
  | sqr e ih =>
    rw [subexpressions, List.forall_mem_cons] at h
    rw [rangeRoundings, reliable_append]
    exact ⟨ih hfactors h.2, Interval.reliable_sqrRoundings (h.2 e e.self_mem_subexpressions)⟩
  | sqrt e ih =>
    rw [subexpressions, List.forall_mem_cons] at h
    rw [rangeRoundings, reliable_append]
    exact ⟨ih hfactors h.2, Interval.reliable_sqrtRoundings (h.2 e e.self_mem_subexpressions)⟩

theorem reliable_evalRoundings {e : Expr} {b : Box} (hb : b.isEmpty = false)
    (hfactors : e.SafeFactors) (h : e.SafeEvaluation b) : Reliable (e.evalRoundings b) := by
  refine reliable_rangeRoundings hfactors fun f hf => ?_
  have hsafe := h f hf
  rw [eval, hb] at hsafe
  exact hsafe

/-- At safe magnitudes evaluation over a box encloses every exact value at a point of
the box. So a condition on the expression that is violated on the box has no zero of
the expression in it. -/
theorem eval_encloses_of_safe {e : Expr} {b : Box} (hfactors : e.SafeFactors)
    (hsafe : e.SafeEvaluation b) :
    (∀ p ∈ b, ∀ v, e.Denotes p v → v ∈ e.eval b) ∧
      ∀ k : Condition, k.expr = e → k.constraint.violated b = true → ∀ p ∈ b, ¬ e.Denotes p 0 := by
  have hencloses : ∀ p ∈ b, ∀ v, e.Denotes p v → v ∈ e.eval b := by
    intro p hp v hv
    exact mem_eval hp hv (reliable_evalRoundings (Box.not_isEmpty_of_mem hp) hfactors hsafe)
  refine ⟨hencloses, ?_⟩
  rintro k rfl hviolated p hp hzero
  have hcontains := Interval.contains_zero_of_mem (hencloses p hp 0 hzero)
  have htest : k.constraint.violated b = !(k.expr.eval b).contains Binary64.zero := by
    cases k with
    | equation e => rfl
    | enclosure e => rfl
    | test e => rfl
  rw [htest, hcontains] at hviolated
  exact absurd hviolated Bool.false_ne_true

/-- The expression `2 * x^2 - 1`. -/
def doubledSquare : Expr :=
  .sub (.scale ⟨0x4000000000000000⟩ (.sqr (.var 0))) (.value ⟨0x3ff0000000000000⟩)

theorem denotes_doubledSquare : doubledSquare.Denotes [Real.sqrt (1 / 2)] 0 := by
  have htwo : (⟨0x4000000000000000⟩ : Binary64).toReal = (2 : Int) :=
    Binary64.toReal_of_units (by decide +kernel)
  have hvalue : doubledSquare.Denotes [Real.sqrt (1 / 2)]
      ((⟨0x4000000000000000⟩ : Binary64).toReal * (Real.sqrt (1 / 2) * Real.sqrt (1 / 2)) -
        (⟨0x3ff0000000000000⟩ : Binary64).toReal) :=
    .sub (.scale (by decide) (.sqr (.coordinate rfl))) (denotes_value _ (by decide))
  have hzero : ((2 : Int) : ℝ) * (1 / 2) - 1 = 0 := by norm_num
  rw [htwo, Binary64.toReal_one, Real.mul_self_sqrt (by norm_num), hzero] at hvalue
  exact hvalue

theorem sqrt_half_mem_unitSegment : [Real.sqrt (1 / 2)] ∈ Box.unitSegment := by
  apply Box.mem_unitSegment
  · linarith [Real.sqrt_nonneg (1 / 2)]
  · rw [Real.sqrt_le_one]
    norm_num

/-- The root of `2 * x^2 = 1` is irrational, and the value there lies in the enclosure
over `[-1, 1]`. -/
theorem doubledSquare_enclosed : doubledSquare.SafeFactors ∧
    doubledSquare.SafeEvaluation Box.unitSegment ∧ [Real.sqrt (1 / 2)] ∈ Box.unitSegment ∧
    doubledSquare.Denotes [Real.sqrt (1 / 2)] 0 ∧ 0 ∈ doubledSquare.eval Box.unitSegment := by
  have hfactors : doubledSquare.SafeFactors := by decide +kernel
  have hsafe : doubledSquare.SafeEvaluation Box.unitSegment := by decide +kernel
  refine ⟨hfactors, hsafe, sqrt_half_mem_unitSegment, denotes_doubledSquare, ?_⟩
  exact (eval_encloses_of_safe hfactors hsafe).1 _ sqrt_half_mem_unitSegment 0 denotes_doubledSquare

/-! ## Projection -/

namespace Node

/-- The results of the backward operator at a node. -/
def narrowed (n : Node) : List Interval :=
  match n.expr with
  | var _ => []
  | const _ => []
  | neg e => [Interval.negBackward n.met (e.eval n.box)]
  | add e₁ e₂ =>
    let (x₁, x₂) := Interval.addBackward n.met (e₁.eval n.box) (e₂.eval n.box)
    [x₁, x₂]
  | sub e₁ e₂ =>
    let (x₁, x₂) := Interval.subBackward n.met (e₁.eval n.box) (e₂.eval n.box)
    [x₁, x₂]
  | scale a e => [Interval.scaleBackward a n.met (e.eval n.box)]
  | sqr e => [Interval.sqrBackward n.met (e.eval n.box)]
  | sqrt e => [Interval.sqrtBackward n.met (e.eval n.box)]

/-- The intervals that are computed at a node: the values of the subexpressions, what
the target has in common with the value of the node, and the results of the backward
operator, which are empty if that is. -/
def intervals (n : Node) : List Interval :=
  n.expr.subexpressions.map (fun f => f.eval n.box) ++ n.met :: n.narrowed

/-- No rounding at a node is misled when the intervals computed there are safe. -/
theorem reliable_roundings {n : Node} (hb : n.box.isEmpty = false)
    (hfactors : n.expr.SafeFactors) (h : ∀ x ∈ n.intervals, x.Safe) : Reliable n.roundings := by
  rw [intervals, List.forall_mem_append, List.forall_mem_map, List.forall_mem_cons] at h
  obtain ⟨hvalues, hmet, hnarrowed⟩ := h
  refine reliable_append.2 ⟨reliable_evalRoundings hb hfactors hvalues, ?_⟩
  obtain ⟨e, b, y⟩ := n
  cases e with
  | var _ | const _ | neg _ => exact List.forall_mem_nil _
  | add e₁ e₂ =>
    refine Interval.reliable_addBackwardRoundings hmet (hvalues e₂ ?_) (hnarrowed _ ?_)
    · exact List.mem_cons_of_mem _ (List.mem_append_right _ e₂.self_mem_subexpressions)
    · exact List.mem_cons_self
  | sub e₁ e₂ =>
    refine Interval.reliable_subBackwardRoundings hmet (hvalues e₂ ?_) (hnarrowed _ ?_)
    · exact List.mem_cons_of_mem _ (List.mem_append_right _ e₂.self_mem_subexpressions)
    · exact List.mem_cons_self
  | scale a e => exact Interval.reliable_unscaleRoundings hmet
  | sqr e => exact Interval.reliable_sqrtRoundings hmet
  | sqrt e => exact Interval.reliable_sqrRoundings hmet

end Node

/-- The intervals that are computed at the nodes which a projection reaches are
safe. -/
def SafeProjection (e : Expr) (b : Box) (y : Interval) : Prop :=
  ∀ n ∈ e.reached b y, ∀ x ∈ n.intervals, x.Safe

instance (e : Expr) (b : Box) (y : Interval) : Decidable (e.SafeProjection b y) :=
  inferInstanceAs (Decidable (∀ n ∈ e.reached b y, ∀ x ∈ n.intervals, x.Safe))

/-- The nodes that a projection reaches have no other factors. -/
theorem factors_subset_of_reached {e : Expr} {b : Box} {y : Interval} {n : Node}
    (h : n ∈ e.reached b y) : n.expr.factors ⊆ e.factors := by
  induction e generalizing b y with
  | var _ | const _ =>
    rw [List.mem_singleton.1 h]
    exact List.Subset.refl _
  | neg e ih | sqr e ih | sqrt e ih =>
    rcases List.mem_cons.1 h with rfl | hbelow
    · exact List.Subset.refl _
    · exact ih (mem_of_mem_handOn hbelow)
  | scale a e ih =>
    rcases List.mem_cons.1 h with rfl | hbelow
    · exact List.Subset.refl _
    · exact List.subset_cons_of_subset _ (ih (mem_of_mem_handOn hbelow))
  | add e₁ e₂ ih₁ ih₂ | sub e₁ e₂ ih₁ ih₂ =>
    rcases List.mem_cons.1 h with rfl | hbelow
    · exact List.Subset.refl _
    · rcases List.mem_append.1 (mem_of_mem_handOn hbelow) with hfirst | hsecond
      · exact List.subset_append_of_subset_left _ (ih₁ hfirst)
      · split at hsecond
        · exact List.subset_append_of_subset_right _ (ih₂ hsecond)
        · cases hsecond

/-- At safe magnitudes projection onto a target removes no point with an exact value in
the target. So the equation that asks the expression to be zero keeps its zeros when it
narrows a box. -/
theorem project_keeps_of_safe {e : Expr} {b : Box} {p : List ℝ} (hfactors : e.SafeFactors)
    (hp : p ∈ b) :
    (∀ y v, e.Denotes p v → v ∈ y → e.SafeProjection b y →
        p ∈ (e.project b y).1 ∧ (e.project b y).2 = true) ∧
      (e.Denotes p 0 → e.SafeProjection b Interval.zero →
        p ∈ ((Constraint.equation (.ofExpr e)).contract b).1 ∧
          ((Constraint.equation (.ofExpr e)).contract b).2 = true) := by
  have hkeeps : ∀ y v, e.Denotes p v → v ∈ y → e.SafeProjection b y →
      Box.Keeps (e.project b y) p := by
    intro y v hv hy hsafe
    refine keeps_project hv hp hy fun n hn hpn => ?_
    refine n.reliable_roundings (Box.not_isEmpty_of_mem hpn) ?_ (hsafe n hn)
    intro a ha
    exact hfactors a (factors_subset_of_reached hn ha)
  exact ⟨hkeeps, fun hv => hkeeps Interval.zero 0 hv Interval.zero_mem_zero⟩

/-- Narrowing `[-1, 1]` by `2 * x^2 = 1` keeps the irrational root. -/
theorem doubledSquare_root_kept : doubledSquare.SafeFactors ∧
    [Real.sqrt (1 / 2)] ∈ Box.unitSegment ∧ doubledSquare.Denotes [Real.sqrt (1 / 2)] 0 ∧
    doubledSquare.SafeProjection Box.unitSegment Interval.zero ∧
    [Real.sqrt (1 / 2)] ∈
      ((Constraint.equation (.ofExpr doubledSquare)).contract Box.unitSegment).1 := by
  have hfactors : doubledSquare.SafeFactors := by decide +kernel
  have hsafe : doubledSquare.SafeProjection Box.unitSegment Interval.zero := by decide +kernel
  refine ⟨hfactors, sqrt_half_mem_unitSegment, denotes_doubledSquare, hsafe, ?_⟩
  exact ((project_keeps_of_safe hfactors sqrt_half_mem_unitSegment).2
    denotes_doubledSquare hsafe).1

end Expr

end Paving
