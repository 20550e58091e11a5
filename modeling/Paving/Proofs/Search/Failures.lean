import Paving.Proofs.Interval.Bisection
import Paving.Proofs.Search.Candidates

/-!
# How a bounded search fails

A search under provided constraints of a non-empty box with finite bounds can fail in one
way only: it comes to a box whose widest component is wider than the tolerance although
its bounds are adjacent numbers, so that no number is left to split it at (`IsGap`).

Every box on the stack stays non-empty: what a constraint lets pass is not empty
(`prune_not_isEmpty`) and neither are the halves of a non-empty box
(`halves_not_isEmpty`). It also stays inside the initial box, so it can be measured
(`exists_classify_eq_ok`). A component that is wider than the tolerance has positive
width, and its bisection fails only at a gap (`isGap_of_halves_eq_error`).
-/

set_option autoImplicit false

namespace Paving

open Binary64

namespace Search

universe u

variable {σ : Type u}

/-! ## Visited boxes are not empty -/

section NotEmpty

variable {cs : List Constraint} {c : Config} {b kept : Box}

theorem contractFrom_not_isEmpty (hcs : ∀ k ∈ cs, k.Provided) {i : Nat}
    (hb : b.isEmpty = false) (h : contractFrom i cs b = .ok kept) : kept.isEmpty = false := by
  induction cs generalizing i b with
  | nil =>
    cases h
    exact hb
  | cons k cs ih =>
    obtain ⟨hk, hrest⟩ := List.forall_mem_cons.1 hcs
    rw [contractFrom] at h
    split at h
    · rename_i hpass
      exact ih hrest (hk.contract_not_isEmpty hpass) h
    · cases h

/-- What provided constraints leave of a non-empty box is not empty. -/
theorem prune_not_isEmpty (hcs : ∀ k ∈ cs, k.Provided) {mode : Pruning}
    (hb : b.isEmpty = false) (h : prune mode cs b = .ok kept) : kept.isEmpty = false := by
  rcases (prune_eq_ok h).1 with rfl | hnarrowed
  · exact hb
  · exact contractFrom_not_isEmpty hcs hb hnarrowed

theorem halves_not_isEmpty {order : HalfOrder} {first second : Box} {axis : Nat}
    (hb : b.isEmpty = false) (h : halves order b axis = .ok (first, second)) :
    first.isEmpty = false ∧ second.isEmpty = false := by
  rcases bisectAxis_of_halves h with hparts | hparts
  · exact Box.bisectAxis_not_isEmpty hb hparts
  · exact (Box.bisectAxis_not_isEmpty hb hparts).symm

variable {observe : Observer σ} {s s' : State σ}

/-- One step leaves no empty box on the stack. -/
theorem stack_not_isEmpty_of_moves (hcs : ∀ k ∈ cs, k.Provided) (h : Moves cs c observe s s')
    (hs : ∀ d ∈ s.stack, d.isEmpty = false) : ∀ d ∈ s'.stack, d.isEmpty = false := by
  cases h with
  | pruned hstack | dropped hstack | left hstack | recorded hstack =>
    rw [hstack] at hs
    exact (List.forall_mem_cons.1 hs).2
  | split hstack _ hverdict _ hhalves =>
    rw [hstack] at hs
    obtain ⟨hb, hrest⟩ := List.forall_mem_cons.1 hs
    have hkept := prune_not_isEmpty hcs hb (prune_of_bisecting hverdict).1
    obtain ⟨hfirst, hsecond⟩ := halves_not_isEmpty hkept hhalves
    exact List.forall_mem_cons.2 ⟨hfirst, List.forall_mem_cons.2 ⟨hsecond, hrest⟩⟩

/-- Nor does a run. -/
theorem stack_not_isEmpty_of_reaches (hcs : ∀ k ∈ cs, k.Provided)
    (h : Reaches cs c observe s s') (hs : ∀ d ∈ s.stack, d.isEmpty = false) :
    ∀ d ∈ s'.stack, d.isEmpty = false := by
  induction h with
  | refl => exact hs
  | tail _ hstep ih => exact stack_not_isEmpty_of_moves hcs (moves_of_step hstep) ih

end NotEmpty

/-! ## Bounded boxes -/

section Bounded

variable {initial b : Box}

/-- The bounds of a component of a non-empty box lie within those of a component of every
box around it. -/
theorem exists_outer_component (hsubset : b ⊆ initial) {axis : Nat} {x : Interval}
    (hx : b.components[axis]? = some x) (hne : x.isEmpty = false) :
    ∃ y ∈ initial.components, y.lb ≤ x.lb ∧ x.ub ≤ y.ub := by
  have hlt : axis < initial.components.length := by
    have hdim : b.components.length = initial.components.length := hsubset.1
    rw [← hdim]
    exact (List.getElem?_eq_some_iff.1 hx).1
  refine ⟨initial.components[axis], List.getElem_mem hlt, ?_⟩
  rcases Interval.subset_iff.1 (hsubset.2 axis x _ hx (List.getElem?_eq_getElem hlt)) with
    hempty | ⟨-, hlow, hhigh⟩
  · rw [hne] at hempty
    cases hempty
  · exact ⟨hlow, hhigh⟩

/-- All components of the box have finite bounds. -/
def FiniteBounds (b : Box) : Prop :=
  ∀ x ∈ b.components, x.lb.isFinite = true ∧ x.ub.isFinite = true

/-- A non-empty box inside one with finite bounds is bounded. -/
theorem isBounded_of_subset (hfinite : FiniteBounds initial) (hsubset : b ⊆ initial)
    (hne : b.isEmpty = false) : ∀ x ∈ b.components, x.isBounded = true := by
  intro x hx
  have hxne : x.isEmpty = false := (Box.isEmpty_of_mem_components hx).trans hne
  obtain ⟨axis, hlt, rfl⟩ := List.getElem_of_mem hx
  obtain ⟨y, hy, hlow, hhigh⟩ :=
    exists_outer_component hsubset (List.getElem?_eq_getElem hlt) hxne
  have hordered := (Interval.lb_le_ub b.components[axis]).2.2
  have hyl := isFinite_iff_rank.1 (hfinite y hy).1
  have hyu := isFinite_iff_rank.1 (hfinite y hy).2
  have hl : (b.components[axis]).lb.isFinite = true := by
    have := hlow.2.2
    have := hhigh.2.2
    rw [isFinite_iff_rank]
    omega
  have hu : (b.components[axis]).ub.isFinite = true := by
    have := hlow.2.2
    have := hhigh.2.2
    rw [isFinite_iff_rank]
    omega
  rw [Interval.isBounded, hxne, hl, hu]
  rfl

end Bounded

/-! ## Failures are gaps -/

/-- A gap in a search of the initial box: adjacent numbers within a component of that box,
farther apart than the tolerance, and one of them the rounded midpoint. -/
structure IsGap (eps : Binary64) (initial : Box) (point lb ub : Binary64) : Prop where
  adjacent : Adjacent lb ub
  endpoint : (point == lb) = true ∨ (point == ub) = true
  wide : eps.toReal < ub.toReal - lb.toReal
  inside : ∃ x ∈ initial.components, x.lb ≤ lb ∧ ub ≤ x.ub

section Gaps

variable {cs : List Constraint} {c : Config} {initial b kept : Box}

theorem zero_le_toReal_eps (c : Config) : 0 ≤ c.eps.toReal := by
  have hnonneg := Binary64.le_of_not_lt (not_nan_of_finite c.eps_valid.1) (by decide) c.eps_valid.2
  have hreal := toReal_le_toReal_iff.2 hnonneg.2.2
  rwa [toReal, units_zero, Int.cast_zero, zero_div] at hreal

/-- A box that pruning leaves non-empty and bounded is decided about. -/
theorem exists_classify_eq_ok (hfinite : FiniteBounds initial)
    (hkept : ∀ kept, prune c.pruning cs b = .ok kept → kept ⊆ initial ∧ kept.isEmpty = false) :
    ∃ verdict, classify cs c b = .ok verdict := by
  rw [classify]
  cases hprune : prune c.pruning cs b with
  | error k => exact ⟨.pruned k, rfl⟩
  | ok kept =>
    obtain ⟨hsubset, hne⟩ := hkept kept hprune
    obtain ⟨axis, w, hwidest⟩ :=
      Box.exists_widestDiam hne (isBounded_of_subset hfinite hsubset hne)
    dsimp only
    rw [hwidest]
    by_cases hle : w ≤ c.eps
    · exact ⟨.accepted kept, if_pos hle⟩
    · exact ⟨.bisecting kept axis, if_neg hle⟩

/-- A box fails to be split only where its component on the axis does. -/
theorem bisectAt_of_halves_eq_error {order : HalfOrder} {axis : Nat} {x : Interval}
    (hx : kept.components[axis]? = some x) (hbounded : x.isBounded = true) {e : SearchError}
    (h : halves order kept axis = .error e) :
    ∃ cause, e = .interval cause ∧
      x.bisectAt (Interval.midpoint x.lb x.ub) = .error cause := by
  rw [halves, Box.bisectAxis_eq_map hx, Interval.bisect, Interval.mid_of_isBounded hbounded] at h
  simp only [bind, Except.bind] at h
  cases hb : x.bisectAt (Interval.midpoint x.lb x.ub) with
  | error cause =>
    rw [hb] at h
    cases h
    exact ⟨cause, rfl, rfl⟩
  | ok parts =>
    rw [hb] at h
    cases order with
    | lowerFirst => cases h
    | upperFirst => cases h

/-- A box that is wider than the tolerance fails to be split only at a gap. -/
theorem isGap_of_halves_eq_error (hsubset : kept ⊆ initial) {axis : Nat} {w : Binary64}
    (hwidest : kept.widestDiam = .ok (axis, w)) (hwide : ¬ w ≤ c.eps) {e : SearchError}
    (h : halves c.order kept axis = .error e) :
    ∃ point lb ub, e = .interval (.bisectionPoint point lb ub) ∧
      IsGap c.eps initial point lb ub := by
  obtain ⟨x, hx, hdiam⟩ := Box.exists_component_of_widestDiam hwidest
  have hbounded := (Interval.diam_eq_ok hdiam).1
  -- The diameter is the least number above the width, so the width exceeds the tolerance too.
  have hwidth : c.eps.toReal < x.ub.toReal - x.lb.toReal := by
    by_contra hle
    exact hwide (Interval.diam_le_of_width_le hdiam c.eps_valid.1 (not_lt.1 hle))
  have hlt : x.lb < x.ub := by
    obtain ⟨hl, hu⟩ := x.bounds_not_nan
    refine ⟨hl, hu, ?_⟩
    by_contra hge
    have hreal := toReal_le_toReal_iff.2 (not_lt.1 hge)
    have heps := zero_le_toReal_eps c
    linarith
  obtain ⟨cause, rfl, hcause⟩ := bisectAt_of_halves_eq_error hx hbounded h
  obtain ⟨rfl, hadjacent, hendpoint⟩ := Interval.bisectAt_midpoint_eq_error hbounded hlt hcause
  have hne : x.isEmpty = false := by
    simp only [Interval.isBounded, Bool.and_eq_true, Bool.not_eq_true'] at hbounded
    exact hbounded.1.1
  exact ⟨_, x.lb, x.ub, rfl, hadjacent, hendpoint, hwidth, exists_outer_component hsubset hx hne⟩

variable {observe : Observer σ} {s : State σ}

/-- A step that fails comes to a gap. -/
theorem isGap_of_ends (hcs : ∀ k ∈ cs, k.Provided) (hfinite : FiniteBounds initial)
    (hstack : ∀ d ∈ s.stack, d ⊆ initial ∧ d.isEmpty = false) {o : Outcome σ}
    (h : Ends cs c observe s o) {e : SearchError} (hresult : o.result = .error e) :
    ∃ point lb ub, e = .interval (.bisectionPoint point lb ub) ∧
      IsGap c.eps initial point lb ub := by
  have hkept : ∀ d ∈ s.stack, ∀ kept, prune c.pruning cs d = .ok kept →
      kept ⊆ initial ∧ kept.isEmpty = false := by
    intro d hd kept hprune
    obtain ⟨hsubset, hne⟩ := hstack d hd
    have hnarrows : ∀ k ∈ cs, k.Narrows := fun k hk => (hcs k hk).narrows
    exact ⟨Box.subset_trans (prune_subset hnarrows hprune) hsubset,
      prune_not_isEmpty hcs hne hprune⟩
  cases h with
  | exhausted => cases hresult
  | limit => cases hresult
  | full => cases hresult
  | stopped => cases hresult
  | unmeasured hs _ hverdict =>
    rw [hs] at hkept
    obtain ⟨verdict, hok⟩ := exists_classify_eq_ok hfinite (hkept _ List.mem_cons_self)
    rw [hok] at hverdict
    cases hverdict
  | unsplit hs _ hverdict _ hhalves =>
    cases hresult
    rw [hs] at hkept
    obtain ⟨hprune, w, hwidest, hwide⟩ := prune_of_bisecting hverdict
    obtain ⟨hsubset, -⟩ := hkept _ List.mem_cons_self _ hprune
    exact isGap_of_halves_eq_error hsubset hwidest hwide hhalves

end Gaps

/-! ## Results -/

/-- A search under provided constraints of a non-empty box with finite bounds fails only
at a gap, whatever the settings and the observer. So it returns a solution if the
tolerance is at least the distance of any two adjacent numbers within a component of the
box. -/
theorem bounded_search_fails_at_gaps {cs : List Constraint} (hcs : ∀ k ∈ cs, k.Provided)
    {initial : Box} (hne : initial.isEmpty = false) (hfinite : FiniteBounds initial)
    (c : Config) (observe : Observer σ) (start : σ) :
    (∀ e, ((Problem.ofProvided cs hcs).search initial c observe start).result = .error e →
        ∃ point lb ub, e = .interval (.bisectionPoint point lb ub) ∧
          IsGap c.eps initial point lb ub) ∧
      ((∀ x ∈ initial.components, ∀ lb ub, Adjacent lb ub → x.lb ≤ lb → ub ≤ x.ub →
          ub.toReal - lb.toReal ≤ c.eps.toReal) →
        ∃ solution,
          ((Problem.ofProvided cs hcs).search initial c observe start).result = .ok solution) := by
  have hgap : ∀ e, ((Problem.ofProvided cs hcs).search initial c observe start).result = .error e →
      ∃ point lb ub, e = .interval (.bisectionPoint point lb ub) ∧
        IsGap c.eps initial point lb ub := by
    intro e hresult
    obtain ⟨s, hreaches, hstep⟩ :=
      halts_run (Problem.ofProvided cs hcs) c observe (.initial initial start)
    have hwithin := within_of_reaches (Problem.ofProvided cs hcs).narrows hreaches
      (within_initial cs c.eps initial start)
    have hnonempty : ∀ d ∈ s.stack, d.isEmpty = false := by
      apply stack_not_isEmpty_of_reaches hcs hreaches
      intro d hd
      rw [List.mem_singleton.1 hd]
      exact hne
    exact isGap_of_ends hcs hfinite (fun d hd => ⟨hwithin.stack d hd, hnonempty d hd⟩)
      (ends_of_step hstep) hresult
  refine ⟨hgap, ?_⟩
  intro htolerance
  cases hresult : ((Problem.ofProvided cs hcs).search initial c observe start).result with
  | ok solution => exact ⟨solution, rfl⟩
  | error e =>
    obtain ⟨point, lb, ub, -, hg⟩ := hgap e hresult
    obtain ⟨x, hx, hlow, hhigh⟩ := hg.inside
    exact absurd hg.wide (not_lt.2 (htolerance x hx lb ub hg.adjacent hlow hhigh))

/-- The adjacent numbers around the root of two. -/
def aroundRootOfTwo : Box :=
  Box.ofComponents [Interval.ofBounds ⟨0x3ff6a09e667f3bcc⟩ ⟨0x3ff6a09e667f3bcd⟩]
    (List.cons_ne_nil _ _)

theorem finiteBounds_aroundRootOfTwo : FiniteBounds aroundRootOfTwo := by
  unfold FiniteBounds
  decide +kernel

/-- With tolerance zero the search for the root of two between the adjacent numbers
around it fails, and what it reports is the gap between them. -/
theorem rootOfTwo_gap : (∀ k ∈ [squareIsTwo], k.Provided) ∧ aroundRootOfTwo.isEmpty = false ∧
    FiniteBounds aroundRootOfTwo ∧
    ((Problem.ofProvided [squareIsTwo] provided_squareIsTwo).search aroundRootOfTwo
        exactNarrowingConfig Stats.observer .zero).result =
      .error (.interval (.bisectionPoint ⟨0x3ff6a09e667f3bcc⟩ ⟨0x3ff6a09e667f3bcc⟩
        ⟨0x3ff6a09e667f3bcd⟩)) ∧
    IsGap Binary64.zero aroundRootOfTwo ⟨0x3ff6a09e667f3bcc⟩ ⟨0x3ff6a09e667f3bcc⟩
      ⟨0x3ff6a09e667f3bcd⟩ := by
  have hne : aroundRootOfTwo.isEmpty = false := by decide +kernel
  have hdecided : (match steps [squareIsTwo] exactNarrowingConfig Stats.observer 1
      (.initial aroundRootOfTwo .zero) with
    | .halt ⟨.error e, _, _, _⟩ => decide (e = .interval (.bisectionPoint ⟨0x3ff6a09e667f3bcc⟩
        ⟨0x3ff6a09e667f3bcc⟩ ⟨0x3ff6a09e667f3bcd⟩))
    | _ => false) = true := by
    decide +kernel
  split at hdecided
  case h_2 => cases hdecided
  case h_1 e _ _ _ hhalt =>
    have hsearch := search_eq_of_steps (Problem.ofProvided [squareIsTwo] provided_squareIsTwo) hhalt
    have hresult := congrArg Outcome.result hsearch
    rw [of_decide_eq_true hdecided] at hresult
    obtain ⟨point, lb, ub, heq, hgap⟩ := (bounded_search_fails_at_gaps provided_squareIsTwo hne
      finiteBounds_aroundRootOfTwo exactNarrowingConfig Stats.observer .zero).1 _ hresult
    cases heq
    exact ⟨provided_squareIsTwo, hne, finiteBounds_aroundRootOfTwo, hresult, hgap⟩

end Search

end Paving
