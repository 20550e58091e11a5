import Paving.Search.Step

/-!
# Running the search

A search runs its step until it halts. It always does: pruning never enlarges a
box, and the two halves of a bisected box share its cells, of which there are
finitely many. A box with `n` cells leads to at most `2 * n - 1` visits, the
nodes of a binary tree with `n` leaves, and the sum of these bounds over the
stack goes down with every step (`work_lt_of_step`).
-/

set_option autoImplicit false

namespace Paving

namespace Search

universe u

variable {σ : Type u}

/-! ## Pruning shrinks boxes -/

theorem eq_of_evaluate {cs : List Constraint} {b kept : Box} (h : evaluate cs b = .ok kept) :
    kept = b := by
  unfold evaluate at h
  split at h
  · cases h
  · cases h
    rfl

theorem contractFrom_subset {cs : List Constraint} (hcs : ∀ c ∈ cs, c.Narrows) {i : Nat}
    {b kept : Box} (h : contractFrom i cs b = .ok kept) : kept ⊆ b := by
  induction cs generalizing i b with
  | nil =>
    cases h
    exact Box.subset_refl _
  | cons c cs ih =>
    unfold contractFrom at h
    dsimp only at h
    split at h
    · have hrest := ih (fun d hd => hcs d (List.mem_cons_of_mem c hd)) h
      exact Box.subset_trans hrest (hcs c List.mem_cons_self b)
    · cases h

/-- What pruning leaves is the box itself or what narrowing leaves of it, and was
evaluated last. -/
theorem prune_eq_ok {mode : Pruning} {cs : List Constraint} {b kept : Box}
    (h : prune mode cs b = .ok kept) :
    (kept = b ∨ contractFrom 0 cs b = .ok kept) ∧ evaluate cs kept = .ok kept := by
  unfold prune at h
  cases he : evaluate cs b with
  | error k => simp [he, bind, Except.bind] at h
  | ok same =>
    have hsame := eq_of_evaluate he
    subst hsame
    cases mode with
    | evaluate =>
      simp only [he, bind, Except.bind, pure, Except.pure, Except.ok.injEq] at h
      subst h
      exact ⟨.inl rfl, he⟩
    | contract =>
      cases hc : contractFrom 0 cs same with
      | error k => simp [he, hc, bind, Except.bind] at h
      | ok narrowed =>
        simp only [he, hc, bind, Except.bind] at h
        have hkept := eq_of_evaluate h
        subst hkept
        exact ⟨.inr rfl, h⟩

/-- What the constraints leave of a box lies in it. -/
theorem prune_subset {mode : Pruning} {cs : List Constraint} (hcs : ∀ c ∈ cs, c.Narrows)
    {b kept : Box} (h : prune mode cs b = .ok kept) : kept ⊆ b := by
  rcases (prune_eq_ok h).1 with rfl | hnarrowed
  · exact Box.subset_refl _
  · exact contractFrom_subset hcs hnarrowed

/-- A box that is to be split lies in the box taken from the stack. -/
theorem bisecting_subset {cs : List Constraint} (hcs : ∀ c ∈ cs, c.Narrows) {c : Config}
    {b kept : Box} {axis : Nat} (h : classify cs c b = .ok (.bisecting kept axis)) :
    kept ⊆ b := by
  unfold classify at h
  split at h
  · cases h
  · rename_i left hp
    split at h
    · cases h
    · split at h
      · cases h
      · cases h
        exact prune_subset hcs hp

/-- The halves of a box are the parts of its bisection, in one order or the other. -/
theorem bisectAxis_of_halves {order : HalfOrder} {b first second : Box} {axis : Nat}
    (h : halves order b axis = .ok (first, second)) :
    b.bisectAxis axis = .ok (first, second) ∨ b.bisectAxis axis = .ok (second, first) := by
  unfold halves at h
  split at h
  · cases h
  · rename_i lower upper hb
    cases order with
    | lowerFirst =>
      cases h
      exact .inl hb
    | upperFirst =>
      cases h
      exact .inr hb

theorem cells_halves {order : HalfOrder} {b first second : Box} {axis : Nat}
    (h : halves order b axis = .ok (first, second)) : first.cells + second.cells ≤ b.cells := by
  rcases bisectAxis_of_halves h with hb | hb
  · exact Box.cells_bisectAxis hb
  · rw [Nat.add_comm]
    exact Box.cells_bisectAxis hb

/-! ## The work that is left -/

/-- An upper bound on the number of visits that a stack leads to. -/
def stackWork : List Box → Nat
  | [] => 0
  | b :: rest => (2 * b.cells - 1) + stackWork rest

/-- An upper bound on the number of visits still to come. -/
def State.work (s : State σ) : Nat :=
  stackWork s.stack

/-- After an answer the search goes on with the heard state or as planned. -/
theorem eq_or_of_respond {heard : State σ × Option Action} {planned : State σ → Step σ}
    {s' : State σ} (h : respond heard planned = .next s') :
    s' = heard.1 ∨ planned heard.1 = .next s' := by
  unfold respond at h
  split at h
  · cases h
  · cases h
    exact .inl rfl
  · exact .inr h

/-- Deciding about a box either leaves the stack alone or adds the two halves of
what the constraints left of it. -/
theorem stack_of_carryOut {c : Config} {observe : Observer σ} {s s' : State σ} {b : Box}
    {verdict : Verdict} (h : carryOut c observe s b verdict = .next s') :
    s'.stack = s.stack ∨ ∃ kept axis first second,
      verdict = .bisecting kept axis ∧ halves c.order kept axis = .ok (first, second) ∧
      s'.stack = first :: second :: s.stack := by
  cases verdict with
  | pruned k =>
    rcases eq_or_of_respond h with rfl | hnext
    · exact .inl rfl
    · cases hnext
      exact .inl rfl
  | accepted kept =>
    simp only [carryOut] at h
    split at h
    · cases h
    · rcases eq_or_of_respond h with rfl | hnext
      · exact .inl rfl
      · cases hnext
        exact .inl rfl
  | bisecting kept axis =>
    rcases eq_or_of_respond h with rfl | hnext
    · exact .inl rfl
    · unfold split at hnext
      split at hnext
      · cases hnext
      · rename_i first second hh
        cases hnext
        exact .inr ⟨kept, axis, first, second, rfl, hh, rfl⟩

/-- Every step that goes on leaves less work. -/
theorem work_lt_of_step {cs : List Constraint} (hcs : ∀ c ∈ cs, c.Narrows) {c : Config}
    {observe : Observer σ} {s s' : State σ} (h : step cs c observe s = .next s') :
    s'.work < s.work := by
  unfold step at h
  split at h
  · cases h
  · rename_i b rest hstack
    split at h
    · cases h
    · dsimp only at h
      split at h
      · cases h
      · rename_i verdict hv
        have hb : 1 ≤ b.cells := b.one_le_cells
        rcases stack_of_carryOut h with hs | ⟨kept, axis, first, second, rfl, hh, hs⟩
        · -- The box is gone and nothing took its place.
          have hrest : s'.stack = rest := hs
          unfold State.work
          rw [hrest, hstack]
          simp only [stackWork]
          omega
        · -- The halves take the place of the box.
          have hrest : s'.stack = first :: second :: rest := hs
          have hkept := Box.cells_mono (bisecting_subset hcs hv)
          have hparts := cells_halves hh
          have hfirst : 1 ≤ first.cells := first.one_le_cells
          have hsecond : 1 ≤ second.cells := second.one_le_cells
          unfold State.work
          rw [hrest, hstack]
          simp only [stackWork]
          omega

/-! ## The run -/

/-- Runs the search from a state until it halts. -/
def run (problem : Problem) (c : Config) (observe : Observer σ) (s : State σ) : Outcome σ :=
  match _h : step problem.constraints c observe s with
  | .halt outcome => outcome
  | .next s' => run problem c observe s'
termination_by s.work
decreasing_by exact work_lt_of_step problem.narrows _h

end Search

namespace Problem

universe u

/-- Searches a box for candidates, with an observer and its first state. -/
def search {σ : Type u} (problem : Problem) (initial : Box) (c : Config) (observe : Observer σ)
    (start : σ) : Search.Outcome σ :=
  Search.run problem c observe (.initial initial start)

/-- Searches a box for candidates without an observer. -/
def solve (problem : Problem) (initial : Box) (c : Config) : Search.Outcome Unit :=
  problem.search initial c Observer.silent ()

end Problem

end Paving
