import Paving.Proofs.Search.Coverage
import Paving.Proofs.Search.Limits
import Paving.Proofs.Search.Termination
import Paving.Proofs.Search.Tree

/-!
# Searches in the two orders

An exhausted search has been through the whole tree of its initial box: the tree is
finite and has no failure (`resolved_of_reaches`), the candidates are the boxes of its
leaves and the visits are its nodes. Conversely such a tree is exhausted by every search
whose limits permit that many candidates and visits (`exhausted_iff`). The tree does not
depend on the order in which halves are explored, and a traversal in one order meets its
leaves in the reverse order of the other. So two searches that differ only in the order
are exhausted together, with the same number of visits and the same candidates in reverse
order (`exhausted_search_mirrors`).
-/

set_option autoImplicit false

namespace Paving

namespace Search

/-! ## Trees in the two orders -/

namespace Tree

theorem arrange_reverse {α : Type} (lower upper : List α) :
    arrange .upperFirst lower.reverse upper.reverse = (arrange .lowerFirst lower upper).reverse :=
  List.reverse_append.symm

theorem boxes_upperFirst (t : Tree) : t.boxes .upperFirst = (t.boxes .lowerFirst).reverse := by
  induction t with
  | pruned => rfl
  | leaf kept => rfl
  | failed cause => rfl
  | node lower upper ihl ihu => rw [boxes, boxes, ihl, ihu, arrange_reverse]

theorem failures_upperFirst (t : Tree) :
    t.failures .upperFirst = (t.failures .lowerFirst).reverse := by
  induction t with
  | pruned => rfl
  | leaf kept => rfl
  | failed cause => rfl
  | node lower upper ihl ihu => rw [failures, failures, ihl, ihu, arrange_reverse]

end Tree

/-! ## The tree of an exhausted search -/

/-- The tree of a box is finite and has no failure. -/
def Resolved (cs : List Constraint) (c : Config) (b : Box) : Prop :=
  ∃ t, TreeOf cs c.pruning c.eps b t ∧ t.failures c.order = []

section Resolved

variable {cs : List Constraint} {c : Config} {b : Box} {s s' : State Unit}

/-- The halves that a split puts on the stack are those of a node of the tree. -/
theorem branch_of_halves {kept first second : Box} {axis : Nat}
    (hverdict : classify cs c b = .ok (.bisecting kept axis))
    (hhalves : halves c.order kept axis = .ok (first, second)) :
    ∃ lower upper, branch cs c.pruning c.eps b = .ok (.node lower upper) ∧
      first = firstHalf c.order lower upper ∧ second = secondHalf c.order lower upper := by
  rw [halves] at hhalves
  cases hparts : kept.bisectAxis axis with
  | error e =>
    rw [hparts] at hhalves
    cases hhalves
  | ok parts =>
    obtain ⟨lower, upper⟩ := parts
    rw [hparts] at hhalves
    refine ⟨lower, upper, by simp only [branch_eq, hverdict, hparts], ?_⟩
    cases horder : c.order with
    | lowerFirst =>
      rw [horder] at hhalves
      cases hhalves
      exact ⟨rfl, rfl⟩
    | upperFirst =>
      rw [horder] at hhalves
      cases hhalves
      exact ⟨rfl, rfl⟩

/-- A node is resolved if its halves are, in whatever order. -/
theorem resolved_node {lower upper : Box}
    (h : branch cs c.pruning c.eps b = .ok (.node lower upper))
    (hfirst : Resolved cs c (firstHalf c.order lower upper))
    (hsecond : Resolved cs c (secondHalf c.order lower upper)) : Resolved cs c b := by
  obtain ⟨t₁, ht₁, hnone₁⟩ := hfirst
  obtain ⟨t₂, ht₂, hnone₂⟩ := hsecond
  unfold Resolved
  cases horder : c.order with
  | lowerFirst =>
    rw [horder] at ht₁ ht₂ hnone₁ hnone₂
    refine ⟨.node t₁ t₂, .node h ht₁ ht₂, ?_⟩
    rw [Tree.failures, hnone₁, hnone₂]
    rfl
  | upperFirst =>
    rw [horder] at ht₁ ht₂ hnone₁ hnone₂
    refine ⟨.node t₂ t₁, .node h ht₂ ht₁, ?_⟩
    rw [Tree.failures, hnone₁, hnone₂]
    rfl

/-- A step resolves the box it takes if what it puts on the stack is resolved. -/
theorem resolved_of_moves (h : Moves cs c Observer.silent s s')
    (hs' : ∀ d ∈ s'.stack, Resolved cs c d) : ∀ d ∈ s.stack, Resolved cs c d := by
  cases h with
  | pruned hstack _ hverdict =>
    rw [hstack]
    refine List.forall_mem_cons.2 ⟨⟨.pruned, .pruned ?_, rfl⟩, hs'⟩
    rw [branch_eq, hverdict]
  | @recorded _ kept _ hstack _ hverdict =>
    rw [hstack]
    refine List.forall_mem_cons.2 ⟨⟨.leaf kept, .leaf ?_, rfl⟩, hs'⟩
    rw [branch_eq, hverdict]
  | dropped _ _ _ _ hreply => cases hreply
  | split hstack _ hverdict _ hhalves =>
    obtain ⟨lower, upper, hbranch, rfl, rfl⟩ := branch_of_halves hverdict hhalves
    obtain ⟨hfirst, hrest⟩ := List.forall_mem_cons.1 hs'
    obtain ⟨hsecond, hbelow⟩ := List.forall_mem_cons.1 hrest
    rw [hstack]
    exact List.forall_mem_cons.2 ⟨resolved_node hbranch hfirst hsecond, hbelow⟩
  | left _ _ _ hreply => cases hreply

/-- A run that empties the stack has resolved every box of it. -/
theorem resolved_of_reaches (h : Reaches cs c Observer.silent s s') (hempty : s'.stack = []) :
    ∀ d ∈ s.stack, Resolved cs c d := by
  -- The boxes of a state are resolved by what comes after it, so the induction is from the end.
  induction h using Relation.ReflTransGen.head_induction_on with
  | refl =>
    rw [hempty]
    exact fun d hd => nomatch hd
  | head hstep _ ih => exact resolved_of_moves (moves_of_step hstep) ih

end Resolved

/-! ## Exhausted searches -/

section Exhausted

variable {cs : List Constraint} {c : Config} {initial : Box} {t : Tree}

/-- A search that nothing stops exhausts a finite tree without failures. -/
theorem reaches_exhausted (ht : TreeOf cs c.pruning c.eps initial t)
    (hnone : t.failures c.order = []) :
    ∃ s, Reaches cs c.unlimited Observer.silent (.initial initial ()) s ∧ s.stack = [] ∧
      s.boxes.toList = t.boxes c.order ∧ s.branchings = t.size := by
  obtain ⟨s, hs, hstack, hboxes, hcount⟩ :=
    reaches_of_treeOf (unlimited_unlimited c) ht hnone (.initial initial ()) [] rfl
  exact ⟨s, hs, hstack, hboxes, hcount.trans (Nat.zero_add _)⟩

/-- A search is exhausted exactly if the tree of its initial box is finite, has no failure
and is within the limits. The result does not depend on the limits. -/
theorem exhausted_iff (cs : List Constraint) (c : Config) (initial : Box) (boxes : List Box)
    (n : Nat) :
    Returns cs c initial (.ok ⟨.exhausted, boxes, n⟩) ↔
      ∃ t, TreeOf cs c.pruning c.eps initial t ∧ t.failures c.order = [] ∧
        boxes = t.boxes c.order ∧ n = t.size ∧ c.Permits boxes.length n := by
  constructor
  · rintro ⟨o, ⟨s, hs, hstep⟩, hresult⟩
    obtain ⟨hstack, rfl⟩ := exhausted_of_step hstep hresult rfl
    cases hresult
    obtain ⟨t, ht, hnone⟩ := resolved_of_reaches hs hstack initial List.mem_cons_self
    -- Without limits the search comes to the same state, and it comes to the end of the tree.
    have hfree := reaches_of_permits c.agrees_unlimited hs (c.permits_unlimited _ _)
    obtain ⟨s₁, hs₁, hstack₁, hboxes, hcount⟩ := reaches_exhausted ht hnone
    have hsame : s.finish .exhausted = s₁.finish .exhausted :=
      Halts.unique ⟨s, hfree, step_of_stack_nil hstack⟩ ⟨s₁, hs₁, step_of_stack_nil hstack₁⟩
    have hresult := congrArg Outcome.result hsame
    simp only [State.finish, hboxes, hcount, Except.ok.injEq, Solution.mk.injEq] at hresult
    obtain ⟨-, hleaves, hnodes⟩ := hresult
    exact ⟨t, ht, hnone, hleaves, hnodes, permits_of_reaches hs c.permits_zero⟩
  · rintro ⟨t, ht, hnone, rfl, rfl, hpermits⟩
    obtain ⟨s, hs, hstack, hboxes, hcount⟩ := reaches_exhausted ht hnone
    have hlength : s.boxes.size = (t.boxes c.order).length := by
      rw [← hboxes]
      rfl
    rw [← hlength, ← hcount] at hpermits
    have hlimited := reaches_of_permits c.agrees_unlimited.symm hs hpermits
    refine ⟨s.finish .exhausted, ⟨s, hlimited, step_of_stack_nil hstack⟩, ?_⟩
    rw [State.finish, hboxes, hcount]

/-- Without a limit or an observer, a search that ends with a solution is exhausted. -/
theorem status_of_returns {solution : Solution} (hc : Unlimited c)
    (h : Returns cs c initial (.ok solution)) : solution.status = .exhausted := by
  obtain ⟨o, ⟨s, -, hstep⟩, hresult⟩ := h
  cases ends_of_step hstep with
  | exhausted => cases hresult; rfl
  | limit _ hlimit =>
    rw [hc.limitReached] at hlimit
    cases hlimit
  | unmeasured => cases hresult
  | full _ _ _ hroom =>
    rw [hc.refuses] at hroom
    cases hroom
  | stopped _ _ _ hreply => cases hreply
  | unsplit => cases hresult

/-- Without a limit the solutions of a search are the finite trees without failures. -/
theorem returns_ok_iff (hc : Unlimited c) (solution : Solution) :
    Returns cs c initial (.ok solution) ↔
      ∃ t, TreeOf cs c.pruning c.eps initial t ∧ t.failures c.order = [] ∧
        solution = ⟨.exhausted, t.boxes c.order, t.size⟩ := by
  constructor
  · intro h
    obtain ⟨status, boxes, n⟩ := solution
    obtain rfl : status = .exhausted := status_of_returns hc h
    obtain ⟨t, ht, hnone, rfl, rfl, -⟩ := (exhausted_iff cs c initial boxes n).1 h
    exact ⟨t, ht, hnone, rfl⟩
  · rintro ⟨t, ht, hnone, rfl⟩
    refine (exhausted_iff cs c initial _ _).2 ⟨t, ht, hnone, rfl, rfl, ?_, ?_⟩
    · intro hstop
      rw [hc.grow] at hstop
      cases hstop
    · intro limit hlimit
      rw [hc.no_limit] at hlimit
      cases hlimit

end Exhausted

/-- The order decides about the order of the candidates of an exhausted search, and about
nothing else: a search that explores lower halves first is exhausted exactly if the one
that explores upper halves first is, after as many visits and with the same candidates in
reverse order. This holds for arbitrary constraints and under all limits, and in particular
for the result of `solve`. -/
theorem exhausted_search_mirrors (cs : List Constraint) (c : Config) (initial : Box)
    (boxes : List Box) (n : Nat) :
    (Returns cs (c.inOrder .lowerFirst) initial (.ok ⟨.exhausted, boxes, n⟩) ↔
        Returns cs (c.inOrder .upperFirst) initial (.ok ⟨.exhausted, boxes.reverse, n⟩)) ∧
      ∀ problem : Problem, problem.constraints = cs →
        ((problem.solve initial (c.inOrder .lowerFirst)).result = .ok ⟨.exhausted, boxes, n⟩ ↔
          (problem.solve initial (c.inOrder .upperFirst)).result =
            .ok ⟨.exhausted, boxes.reverse, n⟩) := by
  have hmirror : Returns cs (c.inOrder .lowerFirst) initial (.ok ⟨.exhausted, boxes, n⟩) ↔
      Returns cs (c.inOrder .upperFirst) initial (.ok ⟨.exhausted, boxes.reverse, n⟩) := by
    rw [exhausted_iff, exhausted_iff]
    refine exists_congr fun t => and_congr_right fun _ => and_congr ?_ (and_congr ?_
      (and_congr_right fun _ => ?_))
    · show t.failures .lowerFirst = [] ↔ t.failures .upperFirst = []
      rw [Tree.failures_upperFirst, List.reverse_eq_nil_iff]
    · show boxes = t.boxes .lowerFirst ↔ boxes.reverse = t.boxes .upperFirst
      rw [Tree.boxes_upperFirst, List.reverse_inj]
    · rw [List.length_reverse]
      exact ⟨fun h => ⟨h.candidates_le, h.visits_le⟩, fun h => ⟨h.candidates_le, h.visits_le⟩⟩
  refine ⟨hmirror, ?_⟩
  rintro problem rfl
  rw [← returns_iff_solve, ← returns_iff_solve]
  exact hmirror

/-- The three quarters of `[-1, 1]` that are not left of zero are found in both orders. -/
theorem quarters_mirrored : ∃ boxes : List Box, boxes.length = 3 ∧
    Returns [notLeftOfZero] (halfConfig.inOrder .lowerFirst) Box.unitSegment
      (.ok ⟨.exhausted, boxes, 7⟩) ∧
    Returns [notLeftOfZero] (halfConfig.inOrder .upperFirst) Box.unitSegment
      (.ok ⟨.exhausted, boxes.reverse, 7⟩) := by
  have hsteps : (steps [notLeftOfZero] (halfConfig.inOrder .lowerFirst) Observer.silent 8
      (.initial Box.unitSegment ())).endsWith (fun _ solution =>
        decide (solution.status = .exhausted ∧ solution.branchings = 7 ∧
          solution.boxes.length = 3)) = true := by
    decide +kernel
  obtain ⟨o, ⟨status, boxes, n⟩, hhalts, hresult, htest⟩ := exists_of_endsWith hsteps
  obtain ⟨rfl, rfl, hthree⟩ := of_decide_eq_true htest
  have hlower : Returns [notLeftOfZero] (halfConfig.inOrder .lowerFirst) Box.unitSegment
      (.ok ⟨.exhausted, boxes, 7⟩) := ⟨o, hhalts, hresult⟩
  exact ⟨boxes, hthree, hlower,
    (exhausted_search_mirrors [notLeftOfZero] halfConfig Box.unitSegment boxes 7).1.1 hlower⟩

end Search

end Paving
