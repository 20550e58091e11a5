import Paving.Proofs.Search.Candidates
import Paving.Proofs.Search.Mirror

/-!
# Searches under more constraints

Constraints that are only evaluated leave boxes as they are, so all that further constraints
can do is to rule out more boxes. A box that all of them admit is treated as before
(`branch_of_admits`), and a box that one of them refuses is the end of its branch
(`branch_of_not_admits`). The tree under more constraints is therefore the tree under fewer,
cut off at the refused boxes, and its leaves are those whose boxes, from the initial one to the
leaf itself, are all admitted. `Trail` is a leaf with these boxes, `TrailsOf` lists the trails
of a tree in the order of traversal, and the leaves under more constraints are a filter of
that list (`exists_filtered_tree`).
-/

set_option autoImplicit false

namespace Paving

namespace Search

/-! ## Admitted boxes -/

/-- No constraint rules the box out. -/
def admits (cs : List Constraint) (b : Box) : Bool :=
  cs.all fun k => !k.violated b

section Admits

variable {cs cs' : List Constraint} {eps : Binary64} {b : Box}

theorem admits_iff : admits cs b = true ↔ ∀ k ∈ cs, k.violated b = false := by
  rw [admits, List.all_eq_true]
  simp only [Bool.not_eq_true']

/-- Fewer constraints admit more boxes. -/
theorem admits_of_subset (hsub : cs ⊆ cs') (h : admits cs' b = true) : admits cs b = true := by
  rw [admits_iff] at h ⊢
  intro k hk
  exact h k (hsub hk)

/-- A refused box is ruled out. -/
theorem branch_of_not_admits (h : admits cs b = false) :
    branch cs .evaluate eps b = .ok .pruned := by
  have hviolated : firstViolated cs b ≠ none := by
    intro hnone
    rw [firstViolated, List.findIdx?_eq_none_iff] at hnone
    rw [admits_iff.2 hnone] at h
    cases h
  obtain ⟨k, hk⟩ := Option.ne_none_iff_exists'.1 hviolated
  rw [branch, prune_evaluate, evaluate, hk]
  rfl

/-- A box that is admitted by two lists of constraints is treated alike by both. -/
theorem branch_of_admits (h : admits cs b = true) (h' : admits cs' b = true) :
    branch cs' .evaluate eps b = branch cs .evaluate eps b := by
  rw [branch, branch, prune_evaluate, prune_evaluate, evaluate_eq_ok (admits_iff.1 h),
    evaluate_eq_ok (admits_iff.1 h')]

/-- Further constraints rule a box out or change nothing about it. -/
theorem branch_of_subset (hsub : cs ⊆ cs') :
    branch cs' .evaluate eps b = .ok .pruned ∨
      branch cs' .evaluate eps b = branch cs .evaluate eps b := by
  cases h : admits cs' b with
  | false => exact .inl (branch_of_not_admits h)
  | true => exact .inr (branch_of_admits (admits_of_subset hsub h) h)

/-- A box that is split under more constraints is split under fewer. -/
theorem branch_node_of_subset (hsub : cs ⊆ cs') {lower upper : Box}
    (h : branch cs' .evaluate eps b = .ok (.node lower upper)) :
    branch cs .evaluate eps b = .ok (.node lower upper) := by
  rcases branch_of_subset hsub with hpruned | hsame
  · rw [hpruned] at h
    cases h
  · rw [← hsame, h]

end Admits

/-! ## Trails -/

/-- A leaf of a tree with the visited boxes that lead to it, the initial one first. -/
structure Trail where
  visited : List Box
  kept : Box

namespace Trail

/-- The trail with one more visited box before the others. -/
def cons (b : Box) (trail : Trail) : Trail :=
  ⟨b :: trail.visited, trail.kept⟩

/-- The constraints rule out no box on the trail. -/
def admittedBy (cs : List Constraint) (trail : Trail) : Bool :=
  trail.visited.all (admits cs)

end Trail

/-- The trails of the leaves of a tree without failures, in the order of traversal. -/
inductive TrailsOf (cs : List Constraint) (mode : Pruning) (eps : Binary64) (order : HalfOrder) :
    Box → List Trail → Prop
  | pruned {b : Box} (h : branch cs mode eps b = .ok .pruned) : TrailsOf cs mode eps order b []
  | leaf {b kept : Box} (h : branch cs mode eps b = .ok (.leaf kept)) :
      TrailsOf cs mode eps order b [⟨[b], kept⟩]
  | node {b lower upper : Box} {ls us : List Trail}
      (h : branch cs mode eps b = .ok (.node lower upper))
      (hl : TrailsOf cs mode eps order lower ls) (hu : TrailsOf cs mode eps order upper us) :
      TrailsOf cs mode eps order b ((Tree.arrange order ls us).map (Trail.cons b))

section Trails

variable {cs cs' : List Constraint} {mode : Pruning} {eps : Binary64} {order : HalfOrder}
  {b : Box} {t : Tree} {trails : List Trail}

/-- The leaves of a tree without failures have trails. -/
theorem exists_trails (ht : TreeOf cs mode eps b t) (hnone : t.failures order = []) :
    ∃ trails, TrailsOf cs mode eps order b trails ∧ trails.map Trail.kept = t.boxes order := by
  induction ht with
  | pruned h => exact ⟨[], .pruned h, rfl⟩
  | leaf h => exact ⟨_, .leaf h, rfl⟩
  | failed => cases hnone
  | node h _ _ ihl ihu =>
    rw [Tree.failures, Tree.arrange_eq_nil_iff] at hnone
    obtain ⟨ls, hl, hls⟩ := ihl hnone.1
    obtain ⟨us, hu, hus⟩ := ihu hnone.2
    refine ⟨_, .node h hl hu, ?_⟩
    rw [List.map_map, Tree.boxes, ← hls, ← hus]
    exact Tree.map_arrange Trail.kept

/-- A trail begins at the box of its tree. -/
theorem mem_visited_of_trailsOf (h : TrailsOf cs mode eps order b trails) :
    ∀ trail ∈ trails, b ∈ trail.visited := by
  cases h with
  | pruned => exact List.forall_mem_nil _
  | leaf => exact List.forall_mem_singleton.2 List.mem_cons_self
  | node =>
    intro trail htrail
    obtain ⟨later, -, rfl⟩ := List.mem_map.1 htrail
    exact List.mem_cons_self

/-- No trail through a refused box is admitted. -/
theorem filter_trails_of_not_admits (h : TrailsOf cs mode eps order b trails)
    (hrefused : admits cs' b = false) : trails.filter (Trail.admittedBy cs') = [] := by
  rw [List.filter_eq_nil_iff]
  intro trail htrail hadmitted
  rw [Trail.admittedBy, List.all_eq_true] at hadmitted
  rw [hadmitted b (mem_visited_of_trailsOf h trail htrail)] at hrefused
  cases hrefused

/-- Behind an admitted box the trails that are admitted are those that are admitted from
there on. -/
theorem filter_cons_of_admits (hadmitted : admits cs' b = true) (trails : List Trail) :
    (trails.map (Trail.cons b)).filter (Trail.admittedBy cs') =
      (trails.filter (Trail.admittedBy cs')).map (Trail.cons b) := by
  rw [List.filter_map]
  congr 2
  funext trail
  simp [Trail.admittedBy, Trail.cons, hadmitted]

/-- The tree under more constraints has the leaves whose trails are admitted. -/
theorem exists_filtered_tree (hsub : cs ⊆ cs') (h : TrailsOf cs .evaluate eps order b trails) :
    ∃ t', TreeOf cs' .evaluate eps b t' ∧ t'.failures order = [] ∧
      t'.boxes order = (trails.filter (Trail.admittedBy cs')).map Trail.kept := by
  induction h with
  | pruned h =>
    refine ⟨.pruned, .pruned ?_, rfl, rfl⟩
    rcases branch_of_subset hsub with hpruned | hsame
    · exact hpruned
    · rw [hsame, h]
  | @leaf b kept h =>
    cases hb : admits cs' b with
    | false =>
      have htrails : TrailsOf cs .evaluate eps order b [⟨[b], kept⟩] := .leaf h
      refine ⟨.pruned, .pruned (branch_of_not_admits hb), rfl, ?_⟩
      rw [filter_trails_of_not_admits htrails hb]
      rfl
    | true =>
      refine ⟨.leaf kept, .leaf ?_, rfl, ?_⟩
      · rw [branch_of_admits (admits_of_subset hsub hb) hb, h]
      · simp [Tree.boxes, Trail.admittedBy, hb]
  | @node b lower upper ls us h hl hu ihl ihu =>
    cases hb : admits cs' b with
    | false =>
      refine ⟨.pruned, .pruned (branch_of_not_admits hb), rfl, ?_⟩
      rw [filter_trails_of_not_admits (.node h hl hu) hb]
      rfl
    | true =>
      obtain ⟨tl, htl, hnl, hbl⟩ := ihl
      obtain ⟨tu, htu, hnu, hbu⟩ := ihu
      refine ⟨.node tl tu, .node ?_ htl htu, ?_, ?_⟩
      · rw [branch_of_admits (admits_of_subset hsub hb) hb, h]
      · rw [Tree.failures, Tree.arrange_eq_nil_iff]
        exact ⟨hnl, hnu⟩
      · rw [filter_cons_of_admits hb, Tree.filter_arrange, List.map_map, Tree.boxes, hbl, hbu]
        exact (Tree.map_arrange Trail.kept).symm

/-- The tree under more constraints has no more nodes. -/
theorem size_le_of_subset (hsub : cs ⊆ cs') (ht : TreeOf cs .evaluate eps b t) {t' : Tree}
    (ht' : TreeOf cs' .evaluate eps b t') : t'.size ≤ t.size := by
  induction ht generalizing t' with
  | pruned h | leaf h | failed h =>
    cases ht' with
    | pruned | leaf | failed => exact Nat.le_refl 1
    | node h' =>
      rw [branch_node_of_subset hsub h'] at h
      cases h
  | node h _ _ ihl ihu =>
    cases ht' with
    | pruned | leaf | failed => exact Tree.one_le_size _
    | node h' htl htu =>
      rw [branch_node_of_subset hsub h'] at h
      cases h
      have hlower := ihl htl
      have hupper := ihu htu
      rw [Tree.size, Tree.size]
      omega

end Trails

/-! ## Results -/

section Results

variable {cs cs' : List Constraint} {c : Config} {initial : Box} {solution : Solution}

theorem returns_unique {result result' : Except SearchError Solution}
    (h : Returns cs c initial result) (h' : Returns cs c initial result') : result = result' := by
  obtain ⟨o, ho, rfl⟩ := h
  obtain ⟨o', ho', rfl⟩ := h'
  rw [ho.unique ho']

/-- What more constraints leave of a search that ends with a solution. -/
theorem exists_filtered_solution (hc : Unlimited c) (hmode : c.pruning = .evaluate)
    (hsub : cs ⊆ cs') (h : Returns cs c initial (.ok solution)) :
    ∃ trails fewer, TrailsOf cs c.pruning c.eps c.order initial trails ∧
      solution.boxes = trails.map Trail.kept ∧ Returns cs' c initial (.ok fewer) ∧
      fewer.boxes = (trails.filter (Trail.admittedBy cs')).map Trail.kept ∧
      fewer.boxes.Sublist solution.boxes ∧ fewer.branchings ≤ solution.branchings := by
  obtain ⟨t, ht, hnone, rfl⟩ := (returns_ok_iff hc solution).1 h
  rw [hmode] at ht
  obtain ⟨trails, htrails, hkept⟩ := exists_trails ht hnone
  obtain ⟨t', ht', hnone', hboxes⟩ := exists_filtered_tree hsub htrails
  refine ⟨trails, ⟨.exhausted, t'.boxes c.order, t'.size⟩, ?_, hkept.symm, ?_, hboxes, ?_,
    size_le_of_subset hsub ht ht'⟩
  · rw [hmode]
    exact htrails
  · rw [returns_ok_iff hc, hmode]
    exact ⟨t', ht', hnone', rfl⟩
  · rw [hboxes, ← hkept]
    exact List.filter_sublist.map Trail.kept

/-- Lists with the same members give the same solutions. -/
theorem returns_of_same_members (hc : Unlimited c) (hmode : c.pruning = .evaluate)
    (hsub : cs ⊆ cs') (hsub' : cs' ⊆ cs) (h : Returns cs c initial (.ok solution)) :
    Returns cs' c initial (.ok solution) := by
  -- Each list filters what the other one leaves, so both searches keep all of it.
  obtain ⟨-, fewer, -, -, hfewer, -, hless, hvisits⟩ := exists_filtered_solution hc hmode hsub h
  obtain ⟨-, same, -, -, hsame, -, hmore, hvisits'⟩ :=
    exists_filtered_solution hc hmode hsub' hfewer
  cases returns_unique h hsame
  have hstatus : fewer.status = solution.status :=
    (status_of_returns hc hfewer).trans (status_of_returns hc h).symm
  have hequal : fewer = solution := by
    cases fewer
    cases solution
    rw [Solution.mk.injEq]
    exact ⟨hstatus, hless.antisymm hmore, Nat.le_antisymm hvisits hvisits'⟩
  exact hequal ▸ hfewer

end Results

/-- Constraints that are only evaluated filter the candidates. If a search without limits ends
with a solution, it is exhausted; and under a list in which all of its constraints occur it
ends with a solution too, is exhausted after no more visits, and finds, in the same order, the
candidates whose trails the longer list admits. So constraints may be permuted and repeated:
lists with the same members give the same solutions. What the search of a problem returns is
the result of `solve`. -/
theorem constraints_filter_candidates {cs cs' : List Constraint} (hsub : cs ⊆ cs') {c : Config}
    (hc : Unlimited c) (hmode : c.pruning = .evaluate) (initial : Box) :
    (∀ solution, Returns cs c initial (.ok solution) → solution.status = .exhausted ∧
      ∃ trails fewer, TrailsOf cs c.pruning c.eps c.order initial trails ∧
        solution.boxes = trails.map Trail.kept ∧ Returns cs' c initial (.ok fewer) ∧
        fewer.status = .exhausted ∧
        fewer.boxes = (trails.filter (Trail.admittedBy cs')).map Trail.kept ∧
        fewer.boxes.Sublist solution.boxes ∧ fewer.branchings ≤ solution.branchings) ∧
      (cs' ⊆ cs → ∀ solution,
        Returns cs c initial (.ok solution) ↔ Returns cs' c initial (.ok solution)) ∧
      ∀ (problem : Problem) (result : Except SearchError Solution),
        Returns problem.constraints c initial result ↔
          (problem.solve initial c).result = result := by
  refine ⟨?_, ?_, ?_⟩
  · intro solution h
    obtain ⟨trails, fewer, htrails, hboxes, hfewer, hfiltered⟩ :=
      exists_filtered_solution hc hmode hsub h
    exact ⟨status_of_returns hc h, trails, fewer, htrails, hboxes, hfewer,
      status_of_returns hc hfewer, hfiltered⟩
  · intro hsub' solution
    exact ⟨returns_of_same_members hc hmode hsub hsub', returns_of_same_members hc hmode hsub' hsub⟩
  · intro problem result
    exact returns_iff_solve problem c initial result

/-- Without constraints the search of `[-1, 1]` finds four quarters; those that are not left of
zero are found if that is asked for, and it makes no difference to ask for it twice. -/
theorem quarters_filtered : Unlimited halfConfig.unlimited ∧
    halfConfig.unlimited.pruning = .evaluate ∧ ∃ solution fewer,
      Returns [] halfConfig.unlimited Box.unitSegment (.ok solution) ∧
        solution.boxes.length = 4 ∧
        Returns [notLeftOfZero] halfConfig.unlimited Box.unitSegment (.ok fewer) ∧
        fewer.boxes.Sublist solution.boxes ∧ fewer.branchings ≤ solution.branchings ∧
        Returns [notLeftOfZero, notLeftOfZero] halfConfig.unlimited Box.unitSegment
          (.ok fewer) := by
  have hc : Unlimited halfConfig.unlimited := unlimited_unlimited halfConfig
  have hsteps : (steps [] halfConfig.unlimited Observer.silent 8
      (.initial Box.unitSegment ())).endsWith (fun _ solution =>
        decide (solution.boxes.length = 4)) = true := by
    decide +kernel
  obtain ⟨o, solution, hhalts, hresult, htest⟩ := exists_of_endsWith hsteps
  have hsolution : Returns [] halfConfig.unlimited Box.unitSegment (.ok solution) :=
    ⟨o, hhalts, hresult⟩
  obtain ⟨-, -, fewer, -, -, hfewer, -, -, hsublist, hvisits⟩ :=
    (constraints_filter_candidates (List.nil_subset [notLeftOfZero]) hc rfl
      Box.unitSegment).1 solution hsolution
  have hsame : [notLeftOfZero] ⊆ [notLeftOfZero, notLeftOfZero] ∧
      [notLeftOfZero, notLeftOfZero] ⊆ [notLeftOfZero] := by
    simp
  have hrepeated := ((constraints_filter_candidates hsame.1 hc rfl
    Box.unitSegment).2.1 hsame.2 fewer).1 hfewer
  exact ⟨hc, rfl, solution, fewer, hsolution, of_decide_eq_true htest, hfewer, hsublist, hvisits,
    hrepeated⟩

end Search

end Paving
