import Paving.Proofs.Box.Measure
import Paving.Proofs.Search.Termination

/-!
# What the search returns

A candidate lies in the initial box, is not empty, violates no constraint, and is no
wider than the tolerance on any axis (`IsCandidate`). What is recorded is not the box
taken from the stack but what pruning left of it, and the constraints were evaluated on
that very box last, so an accepted box is a candidate if the visited one lies in the
initial box (`isCandidate_of_accepted`). That all boxes on the stack do so and all
recorded ones are candidates is preserved by each step (`within_of_moves`), so every
result of a search consists of candidates, whatever ended it
(`search_returns_candidates`).
-/

set_option autoImplicit false

namespace Paving

namespace Search

universe u

variable {σ : Type u}

/-! ## Candidates -/

/-- What the search of the initial box promises of a box `b` that it returns. -/
structure IsCandidate (cs : List Constraint) (eps : Binary64) (initial b : Box) : Prop where
  dim_eq : b.dim = initial.dim
  not_isEmpty : b.isEmpty = false
  subset : b ⊆ initial
  not_violated : ∀ k ∈ cs, k.violated b = false
  /-- The exact width of each component is within the tolerance. -/
  width_le : ∀ x ∈ b.components, x.isBounded = true ∧ x.ub.toReal - x.lb.toReal ≤ eps.toReal

section Verdicts

variable {cs : List Constraint} {c : Config} {b kept : Box}

theorem not_violated_of_evaluate (h : evaluate cs b = .ok kept) :
    ∀ k ∈ cs, k.violated kept = false := by
  rw [eq_of_evaluate h]
  rw [evaluate] at h
  split at h
  · cases h
  · rename_i hnone
    exact List.findIdx?_eq_none_iff.1 hnone

/-- No constraint is violated on what pruning leaves, although the later ones may have
narrowed it after the earlier ones. -/
theorem not_violated_of_prune {mode : Pruning} (h : prune mode cs b = .ok kept) :
    ∀ k ∈ cs, k.violated kept = false :=
  not_violated_of_evaluate (prune_eq_ok h).2

/-- Constraints that are only evaluated leave a box as it is. -/
theorem prune_evaluate (cs : List Constraint) (b : Box) :
    prune .evaluate cs b = evaluate cs b := by
  rw [prune]
  cases evaluate cs b with
  | error k => rfl
  | ok kept => rfl

/-- The box that is accepted is the one that pruning left and that was measured. -/
theorem prune_of_accepted (h : classify cs c b = .ok (.accepted kept)) :
    prune c.pruning cs b = .ok kept ∧ ∃ axis w, kept.widestDiam = .ok (axis, w) ∧ w ≤ c.eps := by
  rw [classify] at h
  split at h
  · cases h
  · rename_i left hprune
    split at h
    · cases h
    · rename_i axis w hwidest
      split at h
      · rename_i hle
        cases h
        exact ⟨hprune, axis, w, hwidest, hle⟩
      · cases h

/-- The box that is split is the one that pruning left and that was measured. -/
theorem prune_of_bisecting {axis : Nat} (h : classify cs c b = .ok (.bisecting kept axis)) :
    prune c.pruning cs b = .ok kept ∧ ∃ w, kept.widestDiam = .ok (axis, w) ∧ ¬ w ≤ c.eps := by
  rw [classify] at h
  split at h
  · cases h
  · rename_i left hprune
    split at h
    · cases h
    · rename_i widest w hwidest
      split at h
      · cases h
      · rename_i hwide
        cases h
        exact ⟨hprune, w, hwidest, hwide⟩

/-- What is accepted of a box in the initial one is a candidate. -/
theorem isCandidate_of_accepted (hcs : ∀ k ∈ cs, k.Narrows) {initial : Box} (hb : b ⊆ initial)
    (h : classify cs c b = .ok (.accepted kept)) : IsCandidate cs c.eps initial kept := by
  obtain ⟨hprune, axis, w, hwidest, hw⟩ := prune_of_accepted h
  have hsubset : kept ⊆ initial := Box.subset_trans (prune_subset hcs hprune) hb
  constructor
  · exact hsubset.1
  · exact (Box.diam_le_of_widestDiam hwidest).1
  · exact hsubset
  · exact not_violated_of_prune hprune
  · exact Box.width_le_of_widestDiam hwidest hw c.eps_valid.1

theorem halves_subset {order : HalfOrder} {first second : Box} {axis : Nat}
    (h : halves order b axis = .ok (first, second)) : first ⊆ b ∧ second ⊆ b := by
  rcases bisectAxis_of_halves h with hb | hb
  · exact Box.bisectAxis_subset hb
  · exact (Box.bisectAxis_subset hb).symm

end Verdicts

/-! ## The invariant -/

/-- Every box still to be visited lies in the initial box, and every recorded one is a
candidate. -/
structure State.Within (s : State σ) (cs : List Constraint) (eps : Binary64) (initial : Box) :
    Prop where
  stack : ∀ b ∈ s.stack, b ⊆ initial
  boxes : ∀ b ∈ s.boxes, IsCandidate cs eps initial b

section Invariant

variable {cs : List Constraint} {c : Config} {observe : Observer σ} {s s' : State σ}
  {initial : Box}

theorem within_initial (cs : List Constraint) (eps : Binary64) (initial : Box) (start : σ) :
    (State.initial initial start).Within cs eps initial := by
  constructor
  · intro b hb
    rw [List.mem_singleton.1 hb]
    exact initial.subset_refl
  · intro b hb
    exact absurd hb (Array.not_mem_empty b)

/-- The box on top of the stack and those below it. -/
theorem State.Within.of_stack {eps : Binary64} (hs : s.Within cs eps initial) {b : Box}
    {rest : List Box} (hstack : s.stack = b :: rest) :
    b ⊆ initial ∧ ∀ d ∈ rest, d ⊆ initial := by
  have hboxes := hs.stack
  rw [hstack] at hboxes
  exact List.forall_mem_cons.1 hboxes

/-- Hearing of the next box takes it from the stack and records nothing. -/
theorem within_hear {eps : Binary64} (hs : s.Within cs eps initial) {b : Box} {rest : List Box}
    (hstack : s.stack = b :: rest) (event : Event) :
    (s.hear observe rest b event).Within cs eps initial :=
  ⟨(hs.of_stack hstack).2, hs.boxes⟩

/-- One step keeps the stack in the initial box and records candidates only. -/
theorem within_of_moves (hcs : ∀ k ∈ cs, k.Narrows) (h : Moves cs c observe s s')
    (hs : s.Within cs c.eps initial) : s'.Within cs c.eps initial := by
  cases h with
  | pruned hstack => exact within_hear hs hstack _
  | dropped hstack => exact within_hear hs hstack _
  | left hstack => exact within_hear hs hstack _
  | recorded hstack _ hverdict =>
    obtain ⟨hb, hrest⟩ := hs.of_stack hstack
    refine ⟨hrest, ?_⟩
    intro d hd
    rcases Array.mem_push.1 hd with hold | rfl
    · exact hs.boxes d hold
    · exact isCandidate_of_accepted hcs hb hverdict
  | split hstack _ hverdict _ hhalves =>
    obtain ⟨hb, hrest⟩ := hs.of_stack hstack
    -- The halves lie in what pruning left, and that in the visited box.
    have hkept := Box.subset_trans (bisecting_subset hcs hverdict) hb
    obtain ⟨hfirst, hsecond⟩ := halves_subset hhalves
    refine ⟨?_, hs.boxes⟩
    exact List.forall_mem_cons.2 ⟨Box.subset_trans hfirst hkept,
      List.forall_mem_cons.2 ⟨Box.subset_trans hsecond hkept, hrest⟩⟩

/-- So does a run. -/
theorem within_of_reaches (hcs : ∀ k ∈ cs, k.Narrows) (h : Reaches cs c observe s s')
    (hs : s.Within cs c.eps initial) : s'.Within cs c.eps initial := by
  induction h with
  | refl => exact hs
  | tail _ hstep ih => exact within_of_moves hcs (moves_of_step hstep) ih

end Invariant

/-! ## Results -/

/-- Every box that a search under provided constraints returns is a candidate, whatever
the settings and the observer, and whatever ended the search. -/
theorem search_returns_candidates {cs : List Constraint} (hcs : ∀ k ∈ cs, k.Provided)
    (initial : Box) (c : Config) (observe : Observer σ) (start : σ) {solution : Solution}
    (hresult : ((Problem.ofProvided cs hcs).search initial c observe start).result =
      .ok solution) : ∀ b ∈ solution.boxes, IsCandidate cs c.eps initial b := by
  intro b hb
  obtain ⟨s, hreaches, hstep⟩ :=
    halts_run (Problem.ofProvided cs hcs) c observe (.initial initial start)
  rw [boxes_of_ends (ends_of_step hstep) hresult, Array.mem_toList_iff] at hb
  have hwithin := within_of_reaches (Problem.ofProvided cs hcs).narrows hreaches
    (within_initial cs c.eps initial start)
  exact hwithin.boxes b hb

/-- The equation `x^2 = 1 / 4`. -/
def halfSquared : Constraint :=
  .equation (.ofExpr (.sub (.sqr (.var 0)) (.value ⟨0x3fd0000000000000⟩)))

/-- The settings with tolerance zero that narrow boxes. -/
def exactNarrowingConfig : Config :=
  { exactConfig with pruning := .contract }

theorem provided_halfSquared : ∀ k ∈ [halfSquared], k.Provided := by
  intro k hk
  rw [List.mem_singleton.1 hk]
  exact .expression _

/-- The search of `[-1, 1]` for the roots of `x^2 = 1 / 4`, with the event counter as its
observer and tolerance zero, splits the segment and returns two candidates. -/
theorem halfSquared_candidates : (∀ k ∈ [halfSquared], k.Provided) ∧ ∃ solution,
    ((Problem.ofProvided [halfSquared] provided_halfSquared).search Box.unitSegment
        exactNarrowingConfig Stats.observer .zero).result = .ok solution ∧
      solution.boxes.length = 2 ∧
      ∀ b ∈ solution.boxes, IsCandidate [halfSquared] Binary64.zero Box.unitSegment b := by
  have hsteps : ∃ o solution, steps [halfSquared] exactNarrowingConfig Stats.observer 4
      (.initial Box.unitSegment .zero) = .halt o ∧ o.result = .ok solution ∧
        solution.boxes.length = 2 := by
    have hdecided : (match steps [halfSquared] exactNarrowingConfig Stats.observer 4
        (.initial Box.unitSegment .zero) with
      | .halt ⟨.ok solution, _, _, _⟩ => decide (solution.boxes.length = 2)
      | _ => false) = true := by
      decide +kernel
    split at hdecided
    case h_1 solution _ _ _ hhalt => exact ⟨_, solution, hhalt, rfl, of_decide_eq_true hdecided⟩
    case h_2 => cases hdecided
  obtain ⟨o, solution, hhalt, hresult, htwo⟩ := hsteps
  have hsearch : (Problem.ofProvided [halfSquared] provided_halfSquared).search Box.unitSegment
      exactNarrowingConfig Stats.observer .zero = o := (halts_iff_run _).1 (halts_of_steps hhalt)
  rw [← hsearch] at hresult
  exact ⟨provided_halfSquared, solution, hresult, htwo,
    search_returns_candidates provided_halfSquared _ _ _ _ hresult⟩

end Search

end Paving
