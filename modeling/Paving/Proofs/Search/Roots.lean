import Paving.Proofs.Expr.Enclosure
import Paving.Proofs.Search.Coverage
import Paving.Proofs.Search.Termination

/-!
# The search loses no root, unless a rounding is misled

A root is a point at which every expression can have the value zero. Pruning keeps a
root of the box as long as no rounding it performs is misled (`exists_prune_eq_ok_of_root`),
so an exhausted search returns every root of the initial box in one of its candidates,
provided that no rounding is misled in the boxes it visits that hold the root
(`exhausted_search_keeps_roots`). The proviso is the exact condition of a wrong
bound, and it cannot be dropped: `lostRoot_pruned` is a search for one point that
drops it.
-/

set_option autoImplicit false

namespace Paving

namespace Search

/-! ## Roundings of a pruning -/

/-- The equations `e = 0`. -/
def equations (es : List Expr) : List Constraint :=
  es.map fun e => .equation (.ofExpr e)

/-- The problem of solving the equations together. -/
def equationProblem (es : List Expr) : Problem :=
  .ofConditions (es.map .equation)

theorem constraints_equationProblem (es : List Expr) :
    (equationProblem es).constraints = equations es :=
  List.map_map

/-- The roundings of evaluating the expressions over a box. -/
def evaluateRoundings (es : List Expr) (b : Box) : List Rounding :=
  es.flatMap fun e => e.evalRoundings b

/-- The roundings of narrowing a box by one equation after the other. -/
def contractRoundings : List Expr → Box → List Rounding
  | [], _ => []
  | e :: es, b => e.projectRoundings b Interval.zero ++
      contractRoundings es (e.project b Interval.zero).1

/-- The roundings of pruning a box. -/
def pruneRoundings (mode : Pruning) (es : List Expr) (b : Box) : List Rounding :=
  match mode with
  | .evaluate => evaluateRoundings es b
  | .contract => evaluateRoundings es b ++ contractRoundings es b ++
      match contractFrom 0 (equations es) b with
      | .ok kept => evaluateRoundings es kept
      | .error _ => []

/-! ## Roots -/

/-- Every expression can be zero at the point. -/
def IsRoot (es : List Expr) (p : List ℝ) : Prop :=
  ∀ e ∈ es, e.Denotes p 0

section Pruning

variable {es : List Expr} {b : Box} {p : List ℝ}

theorem not_violated_of_root (hb : p ∈ b) (hroot : IsRoot es p)
    (h : Reliable (evaluateRoundings es b)) : ∀ k ∈ equations es, k.violated b = false := by
  intro k hk
  obtain ⟨e, he, rfl⟩ := List.mem_map.1 hk
  have hreliable : Reliable (e.evalRoundings b) :=
    fun r hr => h r (List.mem_flatMap.2 ⟨e, he, hr⟩)
  have hzero := Interval.contains_zero_of_mem (Expr.mem_eval hb (hroot e he) hreliable)
  show (!(e.eval b).contains Binary64.zero) = false
  rw [hzero]
  rfl

/-- Each equation keeps a root in the box it narrows. -/
theorem keeps_of_root (hroot : IsRoot es p) (h : Reliable (contractRoundings es b)) :
    ∀ turn ∈ narrowings (equations es) b, p ∈ turn.2 → Box.Keeps (turn.1.contract turn.2) p := by
  induction es generalizing b with
  | nil =>
    intro turn hturn
    cases hturn
  | cons e es ih =>
    -- The first equation narrows the box itself, the others what it left.
    rw [contractRoundings, reliable_append] at h
    intro turn hturn hp
    rcases List.mem_cons.1 hturn with rfl | hrest
    · exact Expr.mem_project (hroot e List.mem_cons_self) hp Interval.zero_mem_zero h.1
    · exact ih (fun e' he' => hroot e' (List.mem_cons_of_mem e he')) h.2 turn hrest hp

/-- Pruning keeps a root of the box if none of its roundings is misled. -/
theorem exists_prune_eq_ok_of_root {mode : Pruning} (hb : p ∈ b) (hroot : IsRoot es p)
    (h : Reliable (pruneRoundings mode es b)) :
    ∃ kept, prune mode (equations es) b = .ok kept ∧ p ∈ kept := by
  cases mode with
  | evaluate =>
    refine exists_prune_eq_ok hb (not_violated_of_root hb hroot h) ?_ ?_
    · intro hmode
      cases hmode
    · intro hmode
      cases hmode
  | contract =>
    rw [pruneRoundings, reliable_append, reliable_append] at h
    obtain ⟨⟨hfirst, hturns⟩, hlast⟩ := h
    refine exists_prune_eq_ok hb (not_violated_of_root hb hroot hfirst) ?_ ?_
    · intro _
      exact keeps_of_root hroot hturns
    · intro _ kept hkept hmem
      rw [hkept] at hlast
      exact not_violated_of_root hmem hroot hlast

end Pruning

/-! ## Searches of one visit -/

section OneVisit

variable {c : Config} {initial : Box}

/-- A search that accepts the initial box returns what pruning left of it. -/
theorem solve_of_accepted (problem : Problem) {kept : Box} (hlimit : c.limitReached 0 = false)
    (hroom : c.refuses 0 = false)
    (h : classify problem.constraints c initial = .ok (.accepted kept)) :
    (problem.solve initial c).result = .ok ⟨.exhausted, [kept], 1⟩ ∧
      ∀ v ∈ (problem.solve initial c).visits, v.box = initial := by
  have hstep : step problem.constraints c Observer.silent (.initial initial ()) =
      .next (((State.initial initial ()).hear Observer.silent [] initial
        (.accepted kept 1)).record kept) := by
    rw [step_of_verdict rfl hlimit h, carryOut_accepted kept hroom]
    rfl
  have hhalts := Halts.of_reaches (.single hstep) (.of_step (step_of_stack_nil rfl))
  have hsolve : problem.solve initial c = _ := (halts_iff_run problem).1 hhalts
  rw [hsolve]
  refine ⟨rfl, ?_⟩
  intro v hv
  rcases Array.mem_push.1 hv with hold | rfl
  · exact absurd hold (Array.not_mem_empty v)
  · rfl

/-- A search that rules out the initial box returns nothing. -/
theorem solve_of_pruned (problem : Problem) {k : Nat} (hlimit : c.limitReached 0 = false)
    (h : classify problem.constraints c initial = .ok (.pruned k)) :
    (problem.solve initial c).result = .ok ⟨.exhausted, [], 1⟩ := by
  have hstep : step problem.constraints c Observer.silent (.initial initial ()) =
      .next ((State.initial initial ()).hear Observer.silent [] initial (.pruned initial k 1)) := by
    rw [step_of_verdict rfl hlimit h, carryOut_pruned]
    rfl
  have hhalts := Halts.of_reaches (.single hstep) (.of_step (step_of_stack_nil rfl))
  have hsolve : problem.solve initial c = _ := (halts_iff_run problem).1 hhalts
  rw [hsolve]
  rfl

end OneVisit

/-! ## Exhausted searches -/

/-- An exhausted search over equations returns every root of the initial box in one of
its candidates, provided that no rounding is misled while it prunes a visited box
that holds the root. To be misled is the exact condition of a wrong bound: a directed
operation on finite operands bounds its exact result if and only if it is not. -/
theorem exhausted_search_keeps_roots (es : List Expr) (initial : Box) (c : Config)
    {solution : Solution} {p : List ℝ}
    (hresult : ((equationProblem es).solve initial c).result = .ok solution)
    (hstatus : solution.status = .exhausted) (hp : p ∈ initial) (hroot : IsRoot es p) :
    ((∀ v ∈ ((equationProblem es).solve initial c).visits, p ∈ v.box →
        Reliable (pruneRoundings c.pruning es v.box)) → ∃ b ∈ solution.boxes, p ∈ b) ∧
      ∀ r : Rounding, r.Defined → (r.direction.Bounds r.bound r.exact ↔ ¬ r.Misled) := by
  constructor
  · intro hreliable
    have hhalts := halts_run (equationProblem es) c Observer.silent (.initial initial ())
    rw [constraints_equationProblem] at hhalts
    have hkeep : ∀ v ∈ ((equationProblem es).solve initial c).visits, p ∈ v.box →
        ∃ kept, prune c.pruning (equations es) v.box = .ok kept ∧ p ∈ kept :=
      fun v hv hmem => exists_prune_eq_ok_of_root hmem hroot (hreliable v hv hmem)
    refine mem_boxes_of_halts hhalts ?_ hresult hstatus hkeep (State.covers_initial hp ())
    intro v hv
    exact absurd hv (Array.not_mem_empty v)
  · intro r hr
    exact Rounding.bounds_bound_iff hr

/-- The equation `3 * x = 1`. -/
def thirdEquation : Expr :=
  .sub (.scale ⟨0x4008000000000000⟩ (.var 0)) (.value ⟨0x3ff0000000000000⟩)

/-- The settings that narrow boxes and have room for any number of candidates. -/
def narrowingConfig : Config :=
  { Config.standard with overflow := .grow, pruning := .contract }

theorem isRoot_third : IsRoot [thirdEquation] [1 / 3] := by
  intro e he
  rw [List.mem_singleton.1 he]
  have hthree : (⟨0x4008000000000000⟩ : Binary64).toReal = (3 : Int) :=
    Binary64.toReal_of_units (by decide +kernel)
  have hvalue : thirdEquation.Denotes [1 / 3] ((⟨0x4008000000000000⟩ : Binary64).toReal * (1 / 3) -
      (⟨0x3ff0000000000000⟩ : Binary64).toReal) :=
    .sub (.scale (by decide) (.coordinate rfl)) (Expr.denotes_value _ (by decide))
  rw [hthree, Binary64.toReal_one] at hvalue
  norm_num at hvalue
  exact hvalue

/-- One third is no binary64 number, and a search that narrows boxes returns a
candidate that has it. -/
theorem third_returned : ∃ solution,
    ((equationProblem [thirdEquation]).solve Box.unitSegment narrowingConfig).result =
        .ok solution ∧ solution.status = .exhausted ∧
      [1 / 3] ∈ Box.unitSegment ∧ IsRoot [thirdEquation] [1 / 3] ∧
      Reliable (pruneRoundings .contract [thirdEquation] Box.unitSegment) ∧
      ∃ b ∈ solution.boxes, [1 / 3] ∈ b := by
  have haccepted : ∃ kept, classify (equationProblem [thirdEquation]).constraints
      narrowingConfig Box.unitSegment = .ok (.accepted kept) := by
    have hdecided : (match classify (equationProblem [thirdEquation]).constraints
        narrowingConfig Box.unitSegment with
      | .ok (.accepted _) => true
      | _ => false) = true := by
      decide +kernel
    split at hdecided
    case h_1 kept hkept => exact ⟨kept, hkept⟩
    case h_2 => cases hdecided
  obtain ⟨kept, hkept⟩ := haccepted
  -- The initial box is narrowed to a sliver, accepted, and the only one visited.
  obtain ⟨hresult, hvisits⟩ := solve_of_accepted _ rfl rfl hkept
  have hmem : [(1 / 3 : ℝ)] ∈ Box.unitSegment := Box.mem_unitSegment (by norm_num) (by norm_num)
  have hreliable : Reliable (pruneRoundings .contract [thirdEquation] Box.unitSegment) := by
    decide +kernel
  refine ⟨_, hresult, rfl, hmem, isRoot_third, hreliable, ?_⟩
  refine (exhausted_search_keeps_roots _ _ _ hresult rfl hmem isRoot_third).1 ?_
  intro v hv _
  rw [hvisits v hv]
  exact hreliable

/-! ## A lost root -/

/-- The defect of the product `a * c`, rounded to `p`, magnified. -/
def magnifiedDefect (k₂ k₁ a c p : Binary64) : Expr :=
  .scale k₂ (.scale k₁ (.sub (.scale a (.value c)) (.value p)))

theorem denotes_magnifiedDefect {k₂ k₁ a c p : Binary64} (q : List ℝ)
    (hfinite : ∀ x ∈ [k₂, k₁, a, c, p], x.isFinite = true)
    (h : k₂.units * (k₁.units * (a.units * c.units - p.units * Binary64.unitsPerOne)) =
      (Binary64.unitsPerOne * Binary64.unitsPerOne) *
        (Binary64.unitsPerOne * Binary64.unitsPerOne)) :
    (magnifiedDefect k₂ k₁ a c p).Denotes q 1 := by
  have hvalue : k₂.toReal * (k₁.toReal * (a.toReal * c.toReal - p.toReal)) = 1 := by
    -- In units this is an equation between whole numbers.
    have hunit := Binary64.unitsPerOne_pos.ne'
    have hreal : (k₂.units : ℝ) *
        (k₁.units * (a.units * c.units - p.units * Binary64.unitsPerOne)) =
        (Binary64.unitsPerOne * Binary64.unitsPerOne) *
          (Binary64.unitsPerOne * Binary64.unitsPerOne) := by
      exact_mod_cast h
    simp only [Binary64.toReal]
    field_simp
    linarith
  rw [← hvalue]
  refine .scale (hfinite k₂ (by simp)) (.scale (hfinite k₁ (by simp)) (.sub (.scale ?_ ?_) ?_))
  · exact hfinite a (by simp)
  · exact Expr.denotes_value q (hfinite c (by simp))
  · exact Expr.denotes_value q (hfinite p (by simp))

/-- The equation `x = 2^1114 * (a * c - p)` with `a = 2^-500 * (1 + 2^-52)`,
`c = 2^-510 * (1 + 2^-52)` and their rounded product `p = 2^-1010 * (1 + 2^-51)`, whose
defect is `2^-1114`. -/
def lostRootEquation : Expr :=
  .sub (.var 0) (magnifiedDefect ⟨0x4710000000000000⟩ ⟨0x7e70000000000000⟩ ⟨0x20b0000000000001⟩
    ⟨0x2010000000000001⟩ ⟨0x00d0000000000002⟩)

/-- The point `1` on one axis. -/
def pointOne : Box :=
  Box.ofComponents [Interval.ofBounds ⟨0x3ff0000000000000⟩ ⟨0x3ff0000000000000⟩]
    (List.cons_ne_nil _ _)

/-- A root that is lost. The point `1` solves the equation, and the search of the box of
that point ends as exhausted with nothing found: the upper bound of the product is
misled by a residual that is rounded to zero. -/
theorem lostRoot_pruned :
    [1] ∈ pointOne ∧ IsRoot [lostRootEquation] [1] ∧
      (Rounding.product .up ⟨0x20b0000000000001⟩ ⟨0x2010000000000001⟩).Misled ∧
      ((equationProblem [lostRootEquation]).solve pointOne exactConfig).result =
        .ok ⟨.exhausted, [], 1⟩ := by
  refine ⟨?_, ?_, by decide +kernel, ?_⟩
  · apply Box.mem_ofComponents_singleton
    have hmem := Interval.toReal_mem_ofBounds
      (show (⟨0x3ff0000000000000⟩ : Binary64).isFinite = true by decide)
    rw [Binary64.toReal_one] at hmem
    exact hmem
  · intro e he
    rw [List.mem_singleton.1 he]
    have hvalue : lostRootEquation.Denotes [1] (1 - 1) :=
      .sub (.coordinate rfl) (denotes_magnifiedDefect [1] (by decide) (by decide +kernel))
    rw [sub_self] at hvalue
    exact hvalue
  · have hclassify : ∃ k, classify
        (equationProblem [lostRootEquation]).constraints exactConfig pointOne =
          .ok (.pruned k) := by
      have hdecided : (match classify
          (equationProblem [lostRootEquation]).constraints
            exactConfig pointOne with
        | .ok (.pruned _) => true
        | _ => false) = true := by
        decide +kernel
      split at hdecided
      case h_1 k hk => exact ⟨k, hk⟩
      case h_2 => cases hdecided
    obtain ⟨k, hk⟩ := hclassify
    exact solve_of_pruned _ rfl hk

end Search

end Paving
