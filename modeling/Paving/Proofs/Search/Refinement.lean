import Paving.Proofs.Search.Candidates
import Paving.Proofs.Search.Mirror

/-!
# Searches with a finer tolerance

A tolerance decides where a search stops splitting boxes. A coarser one takes the same
decision about a box, or accepts a box that the finer one splits (`classify_of_coarser`). So
the tree of a box under the coarser tolerance is that under the finer one, cut off at some of
its nodes: it has no more nodes, it has no failure if the other has none, and a leaf of the
finer tree lies in the leaf that was made of one of the nodes above it
(`exists_coarser_tree`).
-/

set_option autoImplicit false

namespace Paving

namespace Search

variable {cs : List Constraint} {c fine coarse : Config} {b : Box} {t : Tree}

/-! ## Leaves lie in their boxes -/

/-- The halves of a node lie in what the constraints left of its box. -/
theorem node_subset {kept lower upper : Box} {axis : Nat}
    (hverdict : classify cs c b = .ok (.bisecting kept axis))
    (h : branch cs c.pruning c.eps b = .ok (.node lower upper)) :
    lower ⊆ kept ∧ upper ⊆ kept := by
  simp only [branch_eq, hverdict] at h
  split at h
  · cases h
  · rename_i hparts
    cases h
    exact Box.bisectAxis_subset hparts

/-- Under narrowing constraints the leaves of a tree lie in its box. -/
theorem leaf_subset (hcs : ∀ k ∈ cs, k.Narrows) (order : HalfOrder)
    (ht : TreeOf cs c.pruning c.eps b t) : ∀ d ∈ t.boxes order, d ⊆ b := by
  induction ht with
  | pruned => exact List.forall_mem_nil _
  | leaf h =>
    have hkept := prune_subset hcs (prune_of_accepted (classify_of_branch_leaf h)).1
    exact List.forall_mem_singleton.2 hkept
  | failed => exact List.forall_mem_nil _
  | node h _ _ ihl ihu =>
    obtain ⟨kept, axis, hverdict, -⟩ := classify_of_branch_node h
    have hkept := bisecting_subset hcs hverdict
    obtain ⟨hlower, hupper⟩ := node_subset hverdict h
    intro d hd
    rw [Tree.boxes, Tree.mem_arrange] at hd
    rcases hd with hd | hd
    · exact Box.subset_trans (ihl d hd) (Box.subset_trans hlower hkept)
    · exact Box.subset_trans (ihu d hd) (Box.subset_trans hupper hkept)

/-! ## The coarser tree -/

/-- Settings that take the same decision about a box have the same level of the recursion
there. -/
theorem branch_congr (h : classify cs coarse b = classify cs fine b) :
    branch cs coarse.pruning coarse.eps b = branch cs fine.pruning fine.eps b := by
  rw [branch_eq, branch_eq, h]

/-- With a coarser tolerance the decision about a box is the same, unless a box that was to be
split is accepted. -/
theorem classify_of_coarser {verdict : Verdict} (heps : fine.eps ≤ coarse.eps)
    (hpruning : coarse.pruning = fine.pruning) (h : classify cs fine b = .ok verdict) :
    classify cs coarse b = .ok verdict ∨
      ∃ kept axis, verdict = .bisecting kept axis ∧
        classify cs coarse b = .ok (.accepted kept) := by
  rw [classify] at h ⊢
  rw [hpruning]
  cases hprune : prune fine.pruning cs b with
  | error k =>
    rw [hprune] at h
    exact .inl h
  | ok kept =>
    simp only [hprune] at h ⊢
    cases hwidest : kept.widestDiam with
    | error e =>
      rw [hwidest] at h
      cases h
    | ok widest =>
      obtain ⟨axis, diam⟩ := widest
      simp only [hwidest] at h ⊢
      by_cases hfine : diam ≤ fine.eps
      · rw [if_pos hfine] at h
        rw [if_pos (Binary64.le_trans hfine heps)]
        exact .inl h
      · rw [if_neg hfine] at h
        cases h
        by_cases hcoarse : diam ≤ coarse.eps
        · exact .inr ⟨kept, axis, rfl, if_pos hcoarse⟩
        · exact .inl (if_neg hcoarse)

/-- A tree without failures has one under every coarser tolerance too, which is no larger and
whose leaves cover its leaves. -/
theorem exists_coarser_tree (hcs : ∀ k ∈ cs, k.Narrows) (heps : fine.eps ≤ coarse.eps)
    (hpruning : coarse.pruning = fine.pruning) (ht : TreeOf cs fine.pruning fine.eps b t)
    (hnone : t.failures fine.order = []) :
    ∃ t', TreeOf cs coarse.pruning coarse.eps b t' ∧ t'.failures coarse.order = [] ∧
      t'.size ≤ t.size ∧
      ∀ d ∈ t.boxes fine.order, ∃ e ∈ t'.boxes coarse.order, d ⊆ e := by
  induction ht with
  | pruned h =>
    obtain ⟨k, hverdict⟩ := classify_of_branch_pruned h
    rcases classify_of_coarser heps hpruning hverdict with hsame | ⟨_, _, hsplit, -⟩
    · refine ⟨.pruned, .pruned ?_, rfl, Nat.le_refl 1, List.forall_mem_nil _⟩
      rw [branch_congr (hsame.trans hverdict.symm), h]
    · cases hsplit
  | @leaf _ kept h =>
    have hverdict := classify_of_branch_leaf h
    rcases classify_of_coarser heps hpruning hverdict with hsame | ⟨_, _, hsplit, -⟩
    · refine ⟨.leaf kept, .leaf ?_, rfl, Nat.le_refl 1, ?_⟩
      · rw [branch_congr (hsame.trans hverdict.symm), h]
      · exact fun d hd => ⟨d, hd, d.subset_refl⟩
    · cases hsplit
  | failed => cases hnone
  | @node b lower upper tl tu h htl htu ihl ihu =>
    obtain ⟨kept, axis, hverdict, -⟩ := classify_of_branch_node h
    rw [Tree.failures, Tree.arrange_eq_nil_iff] at hnone
    rcases classify_of_coarser heps hpruning hverdict with hsame | ⟨_, _, hsplit, haccepted⟩
    · -- The box is split under both tolerances, into the same halves.
      obtain ⟨tl', htl', hnl, hsl, hcl⟩ := ihl hnone.1
      obtain ⟨tu', htu', hnu, hsu, hcu⟩ := ihu hnone.2
      refine ⟨.node tl' tu', .node ?_ htl' htu', ?_, ?_, ?_⟩
      · rw [branch_congr (hsame.trans hverdict.symm), h]
      · rw [Tree.failures, Tree.arrange_eq_nil_iff]
        exact ⟨hnl, hnu⟩
      · rw [Tree.size, Tree.size]
        omega
      · intro d hd
        rw [Tree.boxes, Tree.mem_arrange] at hd
        simp only [Tree.boxes, Tree.mem_arrange]
        rcases hd with hd | hd
        · obtain ⟨e, he, hde⟩ := hcl d hd
          exact ⟨e, .inl he, hde⟩
        · obtain ⟨e, he, hde⟩ := hcu d hd
          exact ⟨e, .inr he, hde⟩
    · -- What is split under the finer tolerance is a leaf under the coarser one.
      cases hsplit
      obtain ⟨hlower, hupper⟩ := node_subset hverdict h
      refine ⟨.leaf kept, .leaf ?_, rfl, Tree.one_le_size _, ?_⟩
      · rw [branch_eq, haccepted]
      · intro d hd
        refine ⟨kept, List.mem_singleton_self kept, ?_⟩
        rw [Tree.boxes, Tree.mem_arrange] at hd
        rcases hd with hd | hd
        · exact Box.subset_trans (leaf_subset hcs _ htl d hd) hlower
        · exact Box.subset_trans (leaf_subset hcs _ htu d hd) hupper

/-- Refining the tolerance refines the answer. If a search without limits ends with a solution
it is exhausted, and with a coarser tolerance the search ends with a solution too: it is
exhausted after no more visits, and every candidate of the finer search lies in one of its
candidates. The order in which the halves are explored does not matter. -/
theorem finer_search_refines_candidates (problem : Problem) (initial : Box) {fine coarse : Config}
    (hfine : Unlimited fine) (hcoarse : Unlimited coarse) (heps : fine.eps ≤ coarse.eps)
    (hpruning : coarse.pruning = fine.pruning) {solution : Solution}
    (h : (problem.solve initial fine).result = .ok solution) :
    solution.status = .exhausted ∧
      ∃ coarser, (problem.solve initial coarse).result = .ok coarser ∧
        coarser.status = .exhausted ∧ coarser.branchings ≤ solution.branchings ∧
        ∀ b ∈ solution.boxes, ∃ d ∈ coarser.boxes, b ⊆ d := by
  rw [← returns_iff_solve, returns_ok_iff hfine] at h
  obtain ⟨t, ht, hnone, rfl⟩ := h
  obtain ⟨t', ht', hnone', hsize, hcovers⟩ :=
    exists_coarser_tree problem.narrows heps hpruning ht hnone
  refine ⟨rfl, ⟨.exhausted, t'.boxes coarse.order, t'.size⟩, ?_, rfl, hsize, hcovers⟩
  rw [← returns_iff_solve, returns_ok_iff hcoarse]
  exact ⟨t', ht', hnone', rfl⟩

/-- The settings with tolerance one and no limits. -/
def unitConfig : Config :=
  { halfConfig.unlimited with eps := ⟨0x3ff0000000000000⟩, eps_valid := by decide }

/-- The three quarters of `[-1, 1]` that are not left of zero lie in the candidates that the
search finds with tolerance one. -/
theorem quarters_in_halves : Unlimited halfConfig.unlimited ∧ Unlimited unitConfig ∧
    halfConfig.unlimited.eps ≤ unitConfig.eps ∧ ∃ solution coarser,
      (notLeftProblem.solve Box.unitSegment halfConfig.unlimited).result = .ok solution ∧
        solution.boxes.length = 3 ∧
        (notLeftProblem.solve Box.unitSegment unitConfig).result = .ok coarser ∧
        coarser.branchings ≤ solution.branchings ∧
        ∀ b ∈ solution.boxes, ∃ d ∈ coarser.boxes, b ⊆ d := by
  have hfine : Unlimited halfConfig.unlimited := unlimited_unlimited halfConfig
  have hcoarse : Unlimited unitConfig := ⟨rfl, rfl⟩
  have heps : halfConfig.unlimited.eps ≤ unitConfig.eps := by decide
  have hsteps : (steps notLeftProblem.constraints halfConfig.unlimited Observer.silent 8
      (.initial Box.unitSegment ())).endsWith (fun _ solution =>
        decide (solution.boxes.length = 3)) = true := by
    decide +kernel
  obtain ⟨o, solution, hhalts, hresult, htest⟩ := exists_of_endsWith hsteps
  have hsolve : (notLeftProblem.solve Box.unitSegment halfConfig.unlimited).result =
      .ok solution := (returns_iff_solve notLeftProblem _ _ _).1 ⟨o, hhalts, hresult⟩
  obtain ⟨-, coarser, hcoarser, -, hvisits, hcovers⟩ :=
    finer_search_refines_candidates notLeftProblem Box.unitSegment hfine hcoarse heps rfl hsolve
  exact ⟨hfine, hcoarse, heps, solution, coarser, hsolve, of_decide_eq_true htest, hcoarser,
    hvisits, hcovers⟩

end Search

end Paving
