import Paving.Proofs.Box.Points
import Paving.Proofs.Search.Coverage
import Paving.Proofs.Search.Limits
import Paving.Proofs.Search.Termination

/-!
# The search as a traversal of a tree

Branch-and-prune has a recursive definition: prune the box; if something is left,
keep it if it is narrow enough, and otherwise go on with its two halves. `branch`
is one level of this recursion and `TreeOf` the finite tree it unfolds to, if
there is one. The constraints are arbitrary functions, so the tree of a box may
also be infinite; `FailsFirst` says that a traversal meets a failure before
anything infinite.

Without an observer, a limit or a capacity that stops it, the search visits the
nodes of the tree in depth-first order. A box on top of the stack comes to what is
below it with the leaves of its tree recorded (`reaches_of_treeOf`), or to the
first failure in its tree (`halts_of_failsFirst`). A tree with few levels can be
computed (`treeWithin`).
-/

set_option autoImplicit false

namespace Paving

namespace Search

/-! ## Trees -/

/-- What becomes of one box: nothing, a box to be kept, or two halves. -/
inductive Branch where
  | pruned
  | leaf (kept : Box)
  | node (lower upper : Box)

/-- A result on a box as one of the search. -/
def ofBoxResult {α : Type} (r : Except BoxError α) : Except SearchError α :=
  r.mapError SearchError.ofBox

/-- One level of branch-and-prune: prune, compare the largest diameter with the
tolerance, and bisect the widest component at its midpoint. -/
def branch (cs : List Constraint) (mode : Pruning) (eps : Binary64) (b : Box) :
    Except SearchError Branch :=
  match prune mode cs b with
  | .error _ => return .pruned
  | .ok kept => do
    let diam ← ofBoxResult kept.maxDiam
    if diam ≤ eps then return .leaf kept
    else
      let axis ← ofBoxResult kept.widest
      let (lower, upper) ← ofBoxResult (kept.bisectAxis axis)
      return .node lower upper

/-- A finite tree of branch-and-prune. -/
inductive Tree where
  | pruned
  | leaf (kept : Box)
  | failed (cause : SearchError)
  | node (lower upper : Tree)
deriving DecidableEq

/-- The tree that branch-and-prune unfolds to from a box. -/
inductive TreeOf (cs : List Constraint) (mode : Pruning) (eps : Binary64) : Box → Tree → Prop
  | pruned {b : Box} (h : branch cs mode eps b = .ok .pruned) : TreeOf cs mode eps b .pruned
  | leaf {b kept : Box} (h : branch cs mode eps b = .ok (.leaf kept)) :
      TreeOf cs mode eps b (.leaf kept)
  | failed {b : Box} {e : SearchError} (h : branch cs mode eps b = .error e) :
      TreeOf cs mode eps b (.failed e)
  | node {b lower upper : Box} {tl tu : Tree} (h : branch cs mode eps b = .ok (.node lower upper))
      (hl : TreeOf cs mode eps lower tl) (hu : TreeOf cs mode eps upper tu) :
      TreeOf cs mode eps b (.node tl tu)

namespace Tree

/-- The parts of a node in the order in which its halves are explored. -/
def arrange {α : Type} (order : HalfOrder) (lower upper : List α) : List α :=
  match order with
  | .lowerFirst => lower ++ upper
  | .upperFirst => upper ++ lower

/-- The boxes of the leaves in the order of traversal. -/
def boxes (order : HalfOrder) : Tree → List Box
  | pruned => []
  | leaf kept => [kept]
  | failed _ => []
  | node lower upper => arrange order (lower.boxes order) (upper.boxes order)

/-- The failures in the order of traversal. -/
def failures (order : HalfOrder) : Tree → List SearchError
  | pruned => []
  | leaf _ => []
  | failed e => [e]
  | node lower upper => arrange order (lower.failures order) (upper.failures order)

/-- The number of nodes, leaves included. -/
def size : Tree → Nat
  | pruned => 1
  | leaf _ => 1
  | failed _ => 1
  | node lower upper => 1 + lower.size + upper.size

section Arrange

variable {α β : Type} {order : HalfOrder} {lower upper : List α}

@[simp] theorem mem_arrange {x : α} : x ∈ arrange order lower upper ↔ x ∈ lower ∨ x ∈ upper := by
  cases order with
  | lowerFirst => exact List.mem_append
  | upperFirst => exact List.mem_append.trans or_comm

@[simp] theorem arrange_eq_nil_iff : arrange order lower upper = [] ↔ lower = [] ∧ upper = [] := by
  cases order with
  | lowerFirst => exact List.append_eq_nil_iff
  | upperFirst => exact List.append_eq_nil_iff.trans and_comm

theorem map_arrange (f : α → β) :
    (arrange order lower upper).map f = arrange order (lower.map f) (upper.map f) := by
  cases order with
  | lowerFirst => exact List.map_append
  | upperFirst => exact List.map_append

theorem filter_arrange (p : α → Bool) :
    (arrange order lower upper).filter p = arrange order (lower.filter p) (upper.filter p) := by
  cases order with
  | lowerFirst => exact List.filter_append lower upper
  | upperFirst => exact List.filter_append upper lower

end Arrange

theorem one_le_size (t : Tree) : 1 ≤ t.size := by
  cases t with
  | pruned => exact Nat.le_refl 1
  | leaf kept => exact Nat.le_refl 1
  | failed cause => exact Nat.le_refl 1
  | node lower upper =>
    rw [size]
    omega

end Tree

/-- The half that is explored first. -/
def firstHalf (order : HalfOrder) (lower upper : Box) : Box :=
  match order with
  | .lowerFirst => lower
  | .upperFirst => upper

/-- The half that is explored second. -/
def secondHalf (order : HalfOrder) (lower upper : Box) : Box :=
  match order with
  | .lowerFirst => upper
  | .upperFirst => lower

/-- A traversal of the tree of a box meets a failure with the cause `e` before any
other: at the box itself, in the half that is explored first, or in the other half
after the tree of the first one, which is finite and has no failure. Nothing is
asked of what would come later. -/
inductive FailsFirst (cs : List Constraint) (mode : Pruning) (eps : Binary64) (order : HalfOrder) :
    Box → SearchError → Prop
  | here {b : Box} {e : SearchError} (h : branch cs mode eps b = .error e) :
      FailsFirst cs mode eps order b e
  | inFirst {b lower upper : Box} {e : SearchError}
      (h : branch cs mode eps b = .ok (.node lower upper))
      (hfirst : FailsFirst cs mode eps order (firstHalf order lower upper) e) :
      FailsFirst cs mode eps order b e
  | inSecond {b lower upper : Box} {t : Tree} {e : SearchError}
      (h : branch cs mode eps b = .ok (.node lower upper))
      (htree : TreeOf cs mode eps (firstHalf order lower upper) t)
      (hnone : t.failures order = [])
      (hsecond : FailsFirst cs mode eps order (secondHalf order lower upper) e) :
      FailsFirst cs mode eps order b e

/-! ## The decisions of the search and the levels of the recursion -/

section Levels

variable {cs : List Constraint} {c : Config} {b : Box}

/-- The decision about a box is the level of the recursion at the box, before the
halves are made. -/
theorem branch_eq (cs : List Constraint) (c : Config) (b : Box) :
    branch cs c.pruning c.eps b =
      match classify cs c b with
      | .error e => .error e
      | .ok (.pruned _) => .ok .pruned
      | .ok (.accepted kept) => .ok (.leaf kept)
      | .ok (.bisecting kept axis) =>
        match kept.bisectAxis axis with
        | .error e => .error (.ofBox e)
        | .ok (lower, upper) => .ok (.node lower upper) := by
  unfold branch classify
  cases prune c.pruning cs b with
  | error k => rfl
  | ok kept =>
    dsimp only
    cases hw : kept.widestDiam with
    | error e =>
      have hd : kept.maxDiam = .error e := by
        rw [Box.maxDiam, hw]
        rfl
      rw [hd]
      rfl
    | ok best =>
      obtain ⟨axis, diam⟩ := best
      have hd : kept.maxDiam = .ok diam := by
        rw [Box.maxDiam, hw]
        rfl
      have ha : kept.widest = .ok axis := by
        rw [Box.widest, hw]
        rfl
      rw [hd, ha]
      by_cases hle : diam ≤ c.eps
      · simp [ofBoxResult, Except.mapError, bind, Except.bind, hle, pure, Except.pure]
      · simp only [ofBoxResult, Except.mapError, bind, Except.bind, hle, if_false]
        cases kept.bisectAxis axis with
        | error e => rfl
        | ok parts => rfl

theorem classify_of_branch_pruned (h : branch cs c.pruning c.eps b = .ok .pruned) :
    ∃ k, classify cs c b = .ok (.pruned k) := by
  rw [branch_eq] at h
  split at h
  · cases h
  · rename_i k hk
    exact ⟨k, hk⟩
  · cases h
  · split at h <;> cases h

theorem classify_of_branch_leaf {kept : Box} (h : branch cs c.pruning c.eps b = .ok (.leaf kept)) :
    classify cs c b = .ok (.accepted kept) := by
  rw [branch_eq] at h
  split at h
  · cases h
  · cases h
  · rename_i hk
    cases h
    exact hk
  · split at h <;> cases h

theorem classify_of_branch_node {lower upper : Box}
    (h : branch cs c.pruning c.eps b = .ok (.node lower upper)) :
    ∃ kept axis, classify cs c b = .ok (.bisecting kept axis) ∧
      halves c.order kept axis =
        .ok (firstHalf c.order lower upper, secondHalf c.order lower upper) := by
  rw [branch_eq] at h
  split at h
  · cases h
  · cases h
  · cases h
  · rename_i kept axis hk
    split at h
    · cases h
    · rename_i hparts
      cases h
      refine ⟨kept, axis, hk, ?_⟩
      rw [halves, hparts]
      cases c.order <;> rfl

theorem classify_of_branch_error {e : SearchError} (h : branch cs c.pruning c.eps b = .error e) :
    classify cs c b = .error e ∨ ∃ kept axis, classify cs c b = .ok (.bisecting kept axis) ∧
      halves c.order kept axis = .error e := by
  rw [branch_eq] at h
  split at h
  · rename_i hk
    cases h
    exact .inl hk
  · cases h
  · cases h
  · rename_i kept axis hk
    split at h
    · rename_i hparts
      cases h
      exact .inr ⟨kept, axis, hk, by rw [halves, hparts]⟩
    · cases h

end Levels

/-! ## A search that nothing stops -/

/-- The settings neither limit the number of visits nor that of candidates. -/
structure Unlimited (c : Config) : Prop where
  grow : c.overflow = .grow
  no_limit : c.maxBranchings = none

theorem unlimited_unlimited (c : Config) : Unlimited c.unlimited :=
  ⟨rfl, rfl⟩

section Simulation

variable {cs : List Constraint} {c : Config}

theorem Unlimited.limitReached (hc : Unlimited c) (n : Nat) : c.limitReached n = false := by
  rw [Config.limitReached, hc.no_limit]

theorem Unlimited.refuses (hc : Unlimited c) (n : Nat) : c.refuses n = false := by
  rw [Config.refuses, hc.grow]
  exact Bool.and_false _

/-- A ruled out box is taken from the stack. -/
theorem step_of_branch_pruned (hc : Unlimited c) {s : State Unit} {b : Box} {rest : List Box}
    (hstack : s.stack = b :: rest) (h : branch cs c.pruning c.eps b = .ok .pruned) :
    ∃ s', step cs c Observer.silent s = .next s' ∧ s'.stack = rest ∧ s'.boxes = s.boxes ∧
      s'.branchings = s.branchings + 1 := by
  obtain ⟨k, hk⟩ := classify_of_branch_pruned h
  refine ⟨s.hear Observer.silent rest b (.pruned b k (s.branchings + 1)), ?_, rfl, rfl, rfl⟩
  rw [step_of_verdict hstack (hc.limitReached _) hk, carryOut_pruned]
  rfl

/-- A leaf is taken from the stack and recorded. -/
theorem step_of_branch_leaf (hc : Unlimited c) {s : State Unit} {b kept : Box} {rest : List Box}
    (hstack : s.stack = b :: rest) (h : branch cs c.pruning c.eps b = .ok (.leaf kept)) :
    ∃ s', step cs c Observer.silent s = .next s' ∧ s'.stack = rest ∧
      s'.boxes = s.boxes.push kept ∧ s'.branchings = s.branchings + 1 := by
  have hk := classify_of_branch_leaf h
  refine ⟨(s.hear Observer.silent rest b (.accepted kept (s.branchings + 1))).record kept, ?_,
    rfl, rfl, rfl⟩
  rw [step_of_verdict hstack (hc.limitReached _) hk, carryOut_accepted kept (hc.refuses _)]
  rfl

/-- The halves of a node take its place on the stack. -/
theorem step_of_branch_node (hc : Unlimited c) {s : State Unit} {b lower upper : Box}
    {rest : List Box} (hstack : s.stack = b :: rest)
    (h : branch cs c.pruning c.eps b = .ok (.node lower upper)) :
    ∃ s', step cs c Observer.silent s = .next s' ∧
      s'.stack = firstHalf c.order lower upper :: secondHalf c.order lower upper :: rest ∧
      s'.boxes = s.boxes ∧ s'.branchings = s.branchings + 1 := by
  obtain ⟨kept, axis, hk, hhalves⟩ := classify_of_branch_node h
  refine ⟨(s.hear Observer.silent rest b (.bisecting kept axis (s.branchings + 1))).push
    (firstHalf c.order lower upper) (secondHalf c.order lower upper), ?_, rfl, rfl, rfl⟩
  rw [step_of_verdict hstack (hc.limitReached _) hk, carryOut_bisecting]
  show Search.split c kept axis _ = _
  rw [Search.split, hhalves]

/-- A failure ends the search. -/
theorem step_of_branch_error (hc : Unlimited c) {s : State Unit} {b : Box} {rest : List Box}
    {e : SearchError} (hstack : s.stack = b :: rest)
    (h : branch cs c.pruning c.eps b = .error e) :
    ∃ o, step cs c Observer.silent s = .halt o ∧ o.result = .error e := by
  rcases classify_of_branch_error h with hk | ⟨kept, axis, hk, hhalves⟩
  · exact ⟨_, step_of_error hstack (hc.limitReached _) hk, rfl⟩
  · refine ⟨(s.hear Observer.silent rest b (.bisecting kept axis (s.branchings + 1))).fail e, ?_,
      rfl⟩
    rw [step_of_verdict hstack (hc.limitReached _) hk, carryOut_bisecting]
    show Search.split c kept axis _ = _
    rw [Search.split, hhalves]

/-- A tree without failures takes its box from the stack, records the boxes of its
leaves in order and counts its nodes. Whatever lies below the box stays. -/
theorem reaches_of_treeOf (hc : Unlimited c) {b : Box} {t : Tree}
    (ht : TreeOf cs c.pruning c.eps b t) (hnone : t.failures c.order = []) :
    ∀ (s : State Unit) (rest : List Box), s.stack = b :: rest →
      ∃ s', Reaches cs c Observer.silent s s' ∧ s'.stack = rest ∧
        s'.boxes.toList = s.boxes.toList ++ t.boxes c.order ∧
        s'.branchings = s.branchings + t.size := by
  induction ht with
  | pruned h =>
    intro s rest hstack
    obtain ⟨s', hstep, hrest, hboxes, hcount⟩ := step_of_branch_pruned hc hstack h
    refine ⟨s', .single hstep, hrest, ?_, hcount⟩
    rw [hboxes, Tree.boxes, List.append_nil]
  | leaf h =>
    intro s rest hstack
    obtain ⟨s', hstep, hrest, hboxes, hcount⟩ := step_of_branch_leaf hc hstack h
    refine ⟨s', .single hstep, hrest, ?_, hcount⟩
    rw [hboxes, Array.toList_push, Tree.boxes]
  | failed h => cases hnone
  | @node b lower upper tl tu h _ _ ihl ihu =>
    intro s rest hstack
    obtain ⟨s₀, hstep, hstack₀, hboxes₀, hcount₀⟩ := step_of_branch_node hc hstack h
    simp only [Tree.boxes, Tree.size]
    rw [Tree.failures] at hnone
    -- The order decides which tree is traversed first.
    cases horder : c.order with
    | lowerFirst =>
      rw [horder] at hstack₀ hnone ihl ihu
      obtain ⟨hl, hu⟩ := List.append_eq_nil_iff.1 hnone
      obtain ⟨s₁, hr₁, hstack₁, hboxes₁, hcount₁⟩ := ihl hl s₀ _ hstack₀
      obtain ⟨s₂, hr₂, hstack₂, hboxes₂, hcount₂⟩ := ihu hu s₁ _ hstack₁
      refine ⟨s₂, (hr₁.trans hr₂).head hstep, hstack₂, ?_, by omega⟩
      rw [hboxes₂, hboxes₁, hboxes₀, List.append_assoc]
      rfl
    | upperFirst =>
      rw [horder] at hstack₀ hnone ihl ihu
      obtain ⟨hu, hl⟩ := List.append_eq_nil_iff.1 hnone
      obtain ⟨s₁, hr₁, hstack₁, hboxes₁, hcount₁⟩ := ihu hu s₀ _ hstack₀
      obtain ⟨s₂, hr₂, hstack₂, hboxes₂, hcount₂⟩ := ihl hl s₁ _ hstack₁
      refine ⟨s₂, (hr₁.trans hr₂).head hstep, hstack₂, ?_, by omega⟩
      rw [hboxes₂, hboxes₁, hboxes₀, List.append_assoc]
      rfl

/-- The search ends with the first failure of the tree on top of the stack. -/
theorem halts_of_failsFirst (hc : Unlimited c) {b : Box} {e : SearchError}
    (h : FailsFirst cs c.pruning c.eps c.order b e) :
    ∀ (s : State Unit) (rest : List Box), s.stack = b :: rest →
      ∃ o, Halts cs c Observer.silent s o ∧ o.result = .error e := by
  -- Only the part of the tree before the failure has to be finite.
  induction h with
  | here h =>
    intro s rest hstack
    obtain ⟨o, hstep, hresult⟩ := step_of_branch_error hc hstack h
    exact ⟨o, .of_step hstep, hresult⟩
  | inFirst h _ ih =>
    intro s rest hstack
    obtain ⟨s₀, hstep, hstack₀, -, -⟩ := step_of_branch_node hc hstack h
    obtain ⟨o, ho, hresult⟩ := ih s₀ _ hstack₀
    exact ⟨o, .of_reaches (.single hstep) ho, hresult⟩
  | inSecond h htree hnone _ ih =>
    intro s rest hstack
    obtain ⟨s₀, hstep, hstack₀, -, -⟩ := step_of_branch_node hc hstack h
    -- The first half is traversed to its end, and leaves the second half on top of the stack.
    obtain ⟨s₁, hr₁, hstack₁, -, -⟩ := reaches_of_treeOf hc htree hnone s₀ _ hstack₀
    obtain ⟨o, ho, hresult⟩ := ih s₁ _ hstack₁
    exact ⟨o, .of_reaches (hr₁.head hstep) ho, hresult⟩

end Simulation

/-! ## Finite trees -/

/-- The first failure of a finite tree is met before any other. -/
theorem failsFirst_of_treeOf {cs : List Constraint} {mode : Pruning} {eps : Binary64}
    (order : HalfOrder) {b : Box} {t : Tree} (ht : TreeOf cs mode eps b t) :
    ∀ {e : SearchError}, (t.failures order).head? = some e → FailsFirst cs mode eps order b e := by
  induction ht with
  | pruned h =>
    intro e he
    cases he
  | leaf h =>
    intro e he
    cases he
  | failed h =>
    intro e he
    cases he
    exact .here h
  | @node b lower upper tl tu h htl htu ihl ihu =>
    intro e he
    cases order with
    | lowerFirst =>
      rw [Tree.failures, Tree.arrange, List.head?_append] at he
      -- The first failure is in the first half, unless that half has none.
      cases hl : tl.failures .lowerFirst with
      | nil =>
        rw [hl] at he
        exact .inSecond h htl hl (ihu he)
      | cons d ds =>
        rw [hl] at he
        exact .inFirst h (ihl (by rw [hl]; exact he))
    | upperFirst =>
      rw [Tree.failures, Tree.arrange, List.head?_append] at he
      cases hu : tu.failures .upperFirst with
      | nil =>
        rw [hu] at he
        exact .inSecond h htu hu (ihl he)
      | cons d ds =>
        rw [hu] at he
        exact .inFirst h (ihu (by rw [hu]; exact he))

/-- Narrowing constraints have finite trees: each half of a node has fewer cells
than its box. -/
theorem exists_treeOf {cs : List Constraint} (hcs : ∀ k ∈ cs, k.Narrows) (c : Config) :
    ∀ (n : Nat) (b : Box), b.cells ≤ n → ∃ t, TreeOf cs c.pruning c.eps b t := by
  intro n
  induction n with
  | zero =>
    intro b hb
    have := b.one_le_cells
    omega
  | succ n ih =>
    intro b hb
    cases h : branch cs c.pruning c.eps b with
    | error e => exact ⟨.failed e, .failed h⟩
    | ok level =>
      cases level with
      | pruned => exact ⟨.pruned, .pruned h⟩
      | leaf kept => exact ⟨.leaf kept, .leaf h⟩
      | node lower upper =>
        -- The halves share the cells of a box that has no more than `b`.
        obtain ⟨kept, axis, hk, hhalves⟩ := classify_of_branch_node h
        have hkept := Box.cells_mono (bisecting_subset hcs hk)
        have hparts := cells_halves hhalves
        have hlower := lower.one_le_cells
        have hupper := upper.one_le_cells
        have hsum : lower.cells + upper.cells ≤ kept.cells := by
          cases horder : c.order with
          | lowerFirst =>
            rw [horder] at hparts
            exact hparts
          | upperFirst =>
            rw [horder] at hparts
            exact (Nat.add_comm _ _).trans_le hparts
        obtain ⟨tl, htl⟩ := ih lower (by omega)
        obtain ⟨tu, htu⟩ := ih upper (by omega)
        exact ⟨.node tl tu, .node h htl htu⟩

/-! ## The result of a search -/

/-- A search without an observer returns a result. -/
def Returns (cs : List Constraint) (c : Config) (initial : Box)
    (result : Except SearchError Solution) : Prop :=
  ∃ o, Halts cs c Observer.silent (.initial initial ()) o ∧ o.result = result

theorem returns_iff_solve (problem : Problem) (c : Config) (initial : Box)
    (result : Except SearchError Solution) :
    Returns problem.constraints c initial result ↔ (problem.solve initial c).result = result := by
  constructor
  · rintro ⟨o, ho, rfl⟩
    rw [halts_iff_run] at ho
    rw [← ho]
    rfl
  · intro h
    exact ⟨problem.solve initial c, halts_run problem c Observer.silent _, h⟩

/-- The search is the depth-first traversal of the tree of the initial box, for
arbitrary constraints. If the tree is finite and has no failure, the search is
exhausted with the boxes of the leaves in the order of traversal and one visit for
each node; if the tree has a failure, the search fails with the first one, also
when what would come after it is not finite. Under narrowing constraints the tree
is finite, and the result is that of `solve`. -/
theorem search_traverses_tree {c : Config} (hc : Unlimited c) (cs : List Constraint)
    (initial : Box) :
    (∀ t, TreeOf cs c.pruning c.eps initial t → t.failures c.order = [] →
        Returns cs c initial (.ok ⟨.exhausted, t.boxes c.order, t.size⟩)) ∧
      (∀ t e, TreeOf cs c.pruning c.eps initial t → (t.failures c.order).head? = some e →
        Returns cs c initial (.error e)) ∧
      (∀ e, FailsFirst cs c.pruning c.eps c.order initial e → Returns cs c initial (.error e)) ∧
      ∀ problem : Problem, problem.constraints = cs →
        (∃ t, TreeOf cs c.pruning c.eps initial t) ∧
          ∀ result, Returns cs c initial result ↔ (problem.solve initial c).result = result := by
  have hfails : ∀ e, FailsFirst cs c.pruning c.eps c.order initial e →
      Returns cs c initial (.error e) := fun e h =>
    halts_of_failsFirst hc h (.initial initial ()) [] rfl
  refine ⟨?_, fun t e ht he => hfails e (failsFirst_of_treeOf c.order ht he), hfails, ?_⟩
  · intro t ht hnone
    obtain ⟨s, hs, hstack, hboxes, hcount⟩ :=
      reaches_of_treeOf hc ht hnone (.initial initial ()) [] rfl
    refine ⟨s.finish .exhausted, ⟨s, hs, step_of_stack_nil hstack⟩, ?_⟩
    have hlist : s.boxes.toList = t.boxes c.order := hboxes
    have hsize : s.branchings = t.size := hcount.trans (Nat.zero_add _)
    rw [State.finish, hlist, hsize]
  · rintro problem rfl
    exact ⟨exists_treeOf problem.narrows c initial.cells initial (Nat.le_refl _),
      returns_iff_solve problem c initial⟩

/-! ## Trees that are computed -/

/-- The tree of a box, if it has at most the given number of levels. -/
def treeWithin (cs : List Constraint) (mode : Pruning) (eps : Binary64) : Nat → Box → Option Tree
  | 0, _ => none
  | levels + 1, b =>
    match branch cs mode eps b with
    | .error e => some (.failed e)
    | .ok .pruned => some .pruned
    | .ok (.leaf kept) => some (.leaf kept)
    | .ok (.node lower upper) => do
      return .node (← treeWithin cs mode eps levels lower) (← treeWithin cs mode eps levels upper)

theorem treeOf_of_treeWithin {cs : List Constraint} {mode : Pruning} {eps : Binary64}
    {levels : Nat} {b : Box} {t : Tree} (h : treeWithin cs mode eps levels b = some t) :
    TreeOf cs mode eps b t := by
  induction levels generalizing b t with
  | zero => cases h
  | succ levels ih =>
    rw [treeWithin] at h
    split at h
    case h_1 e hbranch =>
      cases h
      exact .failed hbranch
    case h_2 hbranch =>
      cases h
      exact .pruned hbranch
    case h_3 kept hbranch =>
      cases h
      exact .leaf hbranch
    case h_4 lower upper hbranch =>
      obtain ⟨tl, htl, h⟩ := Option.bind_eq_some_iff.1 h
      obtain ⟨tu, htu, h⟩ := Option.bind_eq_some_iff.1 h
      cases h
      exact .node hbranch (ih htl) (ih htu)

/-- The box on one axis with the given bounds. -/
def segment (lb ub : Binary64) : Box :=
  Box.ofComponents [Interval.ofBounds lb ub] (List.cons_ne_nil _ _)

/-- The segment `[-1/2, 0]`. -/
def secondQuarter : Box :=
  segment ⟨0xbfe0000000000000⟩ ⟨0x0000000000000000⟩

/-- The segment `[0, 1/2]`. -/
def thirdQuarter : Box :=
  segment ⟨0x0000000000000000⟩ ⟨0x3fe0000000000000⟩

/-- The segment `[1/2, 1]`. -/
def fourthQuarter : Box :=
  segment ⟨0x3fe0000000000000⟩ ⟨0x3ff0000000000000⟩

/-- The first quarter of `[-1, 1]` is left of zero, and the others are narrow enough. -/
theorem treeOf_quarters :
    TreeOf [notLeftOfZero] halfConfig.pruning halfConfig.eps Box.unitSegment
      (.node (.node .pruned (.leaf secondQuarter))
        (.node (.leaf thirdQuarter) (.leaf fourthQuarter))) :=
  treeOf_of_treeWithin (show treeWithin _ _ _ 3 _ = _ by decide +kernel)

/-- The segment from one to the second number above it. -/
def twoGaps : Box :=
  segment ⟨0x3ff0000000000000⟩ ⟨0x3ff0000000000002⟩

/-- The halves of the segment end at adjacent numbers, between which there is nothing to bisect
at: the midpoint rounds to one of them. -/
theorem treeOf_twoGaps :
    TreeOf [notLeftOfZero] exactConfig.pruning exactConfig.eps twoGaps
      (.node
        (.failed (.interval
          (.bisectionPoint ⟨0x3ff0000000000000⟩ ⟨0x3ff0000000000000⟩ ⟨0x3ff0000000000001⟩)))
        (.failed (.interval
          (.bisectionPoint ⟨0x3ff0000000000002⟩ ⟨0x3ff0000000000001⟩ ⟨0x3ff0000000000002⟩)))) :=
  treeOf_of_treeWithin (show treeWithin _ _ _ 2 _ = _ by decide +kernel)

/-- Three quarters of `[-1, 1]` are found in the order in which the halves are explored. Where both
halves fail, the half that is explored first is the one that the search reports. -/
theorem quarters_and_gaps_traversed :
    (∀ order, Unlimited (halfConfig.inOrder order).unlimited ∧
      Unlimited (exactConfig.inOrder order).unlimited) ∧
    Returns [notLeftOfZero] (halfConfig.inOrder .lowerFirst).unlimited Box.unitSegment
      (.ok ⟨.exhausted, [secondQuarter, thirdQuarter, fourthQuarter], 7⟩) ∧
    Returns [notLeftOfZero] (halfConfig.inOrder .upperFirst).unlimited Box.unitSegment
      (.ok ⟨.exhausted, [fourthQuarter, thirdQuarter, secondQuarter], 7⟩) ∧
    Returns [notLeftOfZero] (exactConfig.inOrder .lowerFirst).unlimited twoGaps
      (.error (.interval
        (.bisectionPoint ⟨0x3ff0000000000000⟩ ⟨0x3ff0000000000000⟩ ⟨0x3ff0000000000001⟩))) ∧
    Returns [notLeftOfZero] (exactConfig.inOrder .upperFirst).unlimited twoGaps
      (.error (.interval
        (.bisectionPoint ⟨0x3ff0000000000002⟩ ⟨0x3ff0000000000001⟩ ⟨0x3ff0000000000002⟩))) := by
  have htraversed := fun (c : Config) (order : HalfOrder) =>
    search_traverses_tree (unlimited_unlimited (c.inOrder order)) [notLeftOfZero]
  refine ⟨fun order => ⟨unlimited_unlimited _, unlimited_unlimited _⟩, ?_, ?_, ?_, ?_⟩
  · exact (htraversed halfConfig .lowerFirst Box.unitSegment).1 _ treeOf_quarters rfl
  · exact (htraversed halfConfig .upperFirst Box.unitSegment).1 _ treeOf_quarters rfl
  · exact (htraversed exactConfig .lowerFirst twoGaps).2.1 _ _ treeOf_twoGaps rfl
  · exact (htraversed exactConfig .upperFirst twoGaps).2.1 _ _ treeOf_twoGaps rfl

end Search

end Paving
