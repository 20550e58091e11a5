import Mathlib.Logic.Relation
import Paving.Search.Run

/-!
# What the steps of a search do

`Moves` lists everything that a step which goes on can do, and `Ends` everything
that a step which halts can do; `moves_of_step` and `ends_of_step` say that the
lists are complete, `step_of_moves` and `step_of_ends` that they list nothing else.
Proofs about the search go by cases on these two relations and do not open the step
itself.

`Reaches` is the run of the search so far and `Halts` the whole run. Neither asks
the constraints to narrow boxes, so neither asks the search to end. When the
constraints of a problem do narrow boxes, the search ends with the outcome that
`run` computes (`halts_run`), and with no other (`Halts.unique`).
-/

set_option autoImplicit false

namespace Paving

namespace Search

universe u

variable {σ : Type u}

/-! ## The state after an event -/

/-- The state in which the search has taken the box `b` from the stack, which
leaves `rest`, and has announced an event for it. -/
def State.hear (s : State σ) (observe : Observer σ) (rest : List Box) (b : Box) (event : Event) :
    State σ :=
  ((s.take rest).announce observe b event).1

/-- The observer's answer to an event. -/
def State.reply (s : State σ) (observe : Observer σ) (event : Event) : Option Action :=
  (observe s.observer event).2

section Hear

variable (s : State σ) (observe : Observer σ) (rest : List Box) (b : Box) (event : Event)

@[simp] theorem stack_hear : (s.hear observe rest b event).stack = rest :=
  rfl

@[simp] theorem boxes_hear : (s.hear observe rest b event).boxes = s.boxes :=
  rfl

@[simp] theorem branchings_hear : (s.hear observe rest b event).branchings = s.branchings + 1 :=
  rfl

@[simp] theorem visits_hear : (s.hear observe rest b event).visits =
    s.visits.push ⟨b, s.branchings + 1, some event, s.reply observe event⟩ :=
  rfl

end Hear

/-! ## Steps that go on -/

/-- What a step that goes on can do with the next box `b`: hear of it as ruled out;
record what the constraints left of it, or drop that; split what they left of it,
or leave that. -/
inductive Moves (cs : List Constraint) (c : Config) (observe : Observer σ) (s : State σ) :
    State σ → Prop
  | pruned {b : Box} {rest : List Box} {k : Nat} (hstack : s.stack = b :: rest)
      (hlimit : c.limitReached s.branchings = false) (hverdict : classify cs c b = .ok (.pruned k))
      (hreply : s.reply observe (.pruned b k (s.branchings + 1)) ≠ some .stopEarly) :
      Moves cs c observe s (s.hear observe rest b (.pruned b k (s.branchings + 1)))
  | recorded {b kept : Box} {rest : List Box} (hstack : s.stack = b :: rest)
      (hlimit : c.limitReached s.branchings = false)
      (hverdict : classify cs c b = .ok (.accepted kept))
      (hroom : c.refuses s.boxes.size = false)
      (hreply : s.reply observe (.accepted kept (s.branchings + 1)) = none) :
      Moves cs c observe s
        ((s.hear observe rest b (.accepted kept (s.branchings + 1))).record kept)
  | dropped {b kept : Box} {rest : List Box} (hstack : s.stack = b :: rest)
      (hlimit : c.limitReached s.branchings = false)
      (hverdict : classify cs c b = .ok (.accepted kept))
      (hroom : c.refuses s.boxes.size = false)
      (hreply : s.reply observe (.accepted kept (s.branchings + 1)) = some .discard) :
      Moves cs c observe s (s.hear observe rest b (.accepted kept (s.branchings + 1)))
  | split {b kept first second : Box} {rest : List Box} {axis : Nat} (hstack : s.stack = b :: rest)
      (hlimit : c.limitReached s.branchings = false)
      (hverdict : classify cs c b = .ok (.bisecting kept axis))
      (hreply : s.reply observe (.bisecting kept axis (s.branchings + 1)) = none)
      (hhalves : halves c.order kept axis = .ok (first, second)) :
      Moves cs c observe s
        ((s.hear observe rest b (.bisecting kept axis (s.branchings + 1))).push first second)
  | left {b kept : Box} {rest : List Box} {axis : Nat} (hstack : s.stack = b :: rest)
      (hlimit : c.limitReached s.branchings = false)
      (hverdict : classify cs c b = .ok (.bisecting kept axis))
      (hreply : s.reply observe (.bisecting kept axis (s.branchings + 1)) = some .discard) :
      Moves cs c observe s (s.hear observe rest b (.bisecting kept axis (s.branchings + 1)))

/-! ## Steps that halt -/

/-- What a step that halts can do: find the stack empty; find the limit reached;
fail to classify the next box; find no room for it; hear that the observer wants to
stop; or fail to split it. -/
inductive Ends (cs : List Constraint) (c : Config) (observe : Observer σ) (s : State σ) :
    Outcome σ → Prop
  | exhausted (hstack : s.stack = []) : Ends cs c observe s (s.finish .exhausted)
  | limit {b : Box} {rest : List Box} (hstack : s.stack = b :: rest)
      (hlimit : c.limitReached s.branchings = true) :
      Ends cs c observe s ({ s with stack := rest }.finish .branchingLimit)
  | unmeasured {b : Box} {rest : List Box} {e : SearchError} (hstack : s.stack = b :: rest)
      (hlimit : c.limitReached s.branchings = false) (hverdict : classify cs c b = .error e) :
      Ends cs c observe s (((s.take rest).pass b).fail e)
  | full {b kept : Box} {rest : List Box} (hstack : s.stack = b :: rest)
      (hlimit : c.limitReached s.branchings = false)
      (hverdict : classify cs c b = .ok (.accepted kept))
      (hroom : c.refuses s.boxes.size = true) :
      Ends cs c observe s (((s.take rest).pass b).finish .capacityReached)
  | stopped {b : Box} {rest : List Box} {event : Event} (hstack : s.stack = b :: rest)
      (hlimit : c.limitReached s.branchings = false)
      (hevent : (∃ k, classify cs c b = .ok (.pruned k) ∧
          event = .pruned b k (s.branchings + 1)) ∨
        (∃ kept, classify cs c b = .ok (.accepted kept) ∧ c.refuses s.boxes.size = false ∧
          event = .accepted kept (s.branchings + 1)) ∨
        ∃ kept axis, classify cs c b = .ok (.bisecting kept axis) ∧
          event = .bisecting kept axis (s.branchings + 1))
      (hreply : s.reply observe event = some .stopEarly) :
      Ends cs c observe s ((s.hear observe rest b event).finish .stoppedByObserver)
  | unsplit {b kept : Box} {rest : List Box} {axis : Nat} {e : SearchError}
      (hstack : s.stack = b :: rest) (hlimit : c.limitReached s.branchings = false)
      (hverdict : classify cs c b = .ok (.bisecting kept axis))
      (hreply : s.reply observe (.bisecting kept axis (s.branchings + 1)) = none)
      (hhalves : halves c.order kept axis = .error e) :
      Ends cs c observe s ((s.hear observe rest b (.bisecting kept axis (s.branchings + 1))).fail e)

/-! ## The lists are complete -/

section Equations

variable {cs : List Constraint} {c : Config} {observe : Observer σ} {s : State σ} {b : Box}
  {rest : List Box}

theorem step_of_stack_nil (hstack : s.stack = []) :
    step cs c observe s = .halt (s.finish .exhausted) := by
  simp only [step, hstack]

theorem step_of_limit (hstack : s.stack = b :: rest) (hlimit : c.limitReached s.branchings = true) :
    step cs c observe s = .halt ({ s with stack := rest }.finish .branchingLimit) := by
  simp only [step, hstack, hlimit, if_true]

theorem step_of_error {e : SearchError} (hstack : s.stack = b :: rest)
    (hlimit : c.limitReached s.branchings = false) (hverdict : classify cs c b = .error e) :
    step cs c observe s = .halt (((s.take rest).pass b).fail e) := by
  simp [step, hstack, hlimit, hverdict]

theorem step_of_verdict {verdict : Verdict} (hstack : s.stack = b :: rest)
    (hlimit : c.limitReached s.branchings = false) (hverdict : classify cs c b = .ok verdict) :
    step cs c observe s = carryOut c observe (s.take rest) b verdict := by
  simp [step, hstack, hlimit, hverdict]

theorem carryOut_pruned (k : Nat) : carryOut c observe (s.take rest) b (.pruned k) =
    respond (s.hear observe rest b (.pruned b k (s.branchings + 1)),
      s.reply observe (.pruned b k (s.branchings + 1))) .next :=
  rfl

theorem carryOut_full (kept : Box) (hroom : c.refuses s.boxes.size = true) :
    carryOut c observe (s.take rest) b (.accepted kept) =
      .halt (((s.take rest).pass b).finish .capacityReached) :=
  if_pos hroom

theorem carryOut_accepted (kept : Box) (hroom : c.refuses s.boxes.size = false) :
    carryOut c observe (s.take rest) b (.accepted kept) =
      respond (s.hear observe rest b (.accepted kept (s.branchings + 1)),
        s.reply observe (.accepted kept (s.branchings + 1))) fun heard =>
          .next (heard.record kept) :=
  if_neg (by rw [State.take, hroom]; exact Bool.false_ne_true)

theorem carryOut_bisecting (kept : Box) (axis : Nat) :
    carryOut c observe (s.take rest) b (.bisecting kept axis) =
      respond (s.hear observe rest b (.bisecting kept axis (s.branchings + 1)),
        s.reply observe (.bisecting kept axis (s.branchings + 1))) (Search.split c kept axis) :=
  rfl

end Equations

/-- The two relations say what a step leads to. -/
def Step.Described (cs : List Constraint) (c : Config) (observe : Observer σ) (s : State σ) :
    Step σ → Prop
  | .next s' => Moves cs c observe s s'
  | .halt o => Ends cs c observe s o

/-- After a decision nothing happens but what the two relations list. -/
theorem described_carryOut {cs : List Constraint} {c : Config} (observe : Observer σ)
    {s : State σ} {b : Box} {rest : List Box} {verdict : Verdict} (hstack : s.stack = b :: rest)
    (hlimit : c.limitReached s.branchings = false) (hverdict : classify cs c b = .ok verdict) :
    (carryOut c observe (s.take rest) b verdict).Described cs c observe s := by
  cases verdict with
  | pruned k =>
    rw [carryOut_pruned]
    cases hreply : s.reply observe (.pruned b k (s.branchings + 1)) with
    -- A box that is ruled out is gone whether the observer discards it or not.
    | none => exact Moves.pruned hstack hlimit hverdict (by simp [hreply])
    | some action =>
      cases action with
      | stopEarly => exact Ends.stopped hstack hlimit (.inl ⟨k, hverdict, rfl⟩) hreply
      | discard => exact Moves.pruned hstack hlimit hverdict (by simp [hreply])
  | accepted kept =>
    -- The room is asked for before the observer is.
    cases hroom : c.refuses s.boxes.size with
    | true =>
      rw [carryOut_full kept hroom]
      exact Ends.full hstack hlimit hverdict hroom
    | false =>
      rw [carryOut_accepted kept hroom]
      cases hreply : s.reply observe (.accepted kept (s.branchings + 1)) with
      | none => exact Moves.recorded hstack hlimit hverdict hroom hreply
      | some action =>
        cases action with
        | stopEarly =>
          exact Ends.stopped hstack hlimit (.inr (.inl ⟨kept, hverdict, hroom, rfl⟩)) hreply
        | discard => exact Moves.dropped hstack hlimit hverdict hroom hreply
  | bisecting kept axis =>
    rw [carryOut_bisecting]
    cases hreply : s.reply observe (.bisecting kept axis (s.branchings + 1)) with
    | some action =>
      cases action with
      | stopEarly =>
        exact Ends.stopped hstack hlimit (.inr (.inr ⟨kept, axis, hverdict, rfl⟩)) hreply
      | discard => exact Moves.left hstack hlimit hverdict hreply
    | none =>
      -- Without an answer the box is split, and splitting can fail.
      simp only [respond, Search.split]
      cases hhalves : halves c.order kept axis with
      | error e => exact Ends.unsplit hstack hlimit hverdict hreply hhalves
      | ok parts => exact Moves.split hstack hlimit hverdict hreply hhalves

/-- A step does nothing but what the two relations list. -/
theorem described_step (cs : List Constraint) (c : Config) (observe : Observer σ) (s : State σ) :
    (step cs c observe s).Described cs c observe s := by
  cases hstack : s.stack with
  | nil =>
    rw [step_of_stack_nil hstack]
    exact Ends.exhausted hstack
  | cons b rest =>
    cases hlimit : c.limitReached s.branchings with
    | true =>
      rw [step_of_limit hstack hlimit]
      exact Ends.limit hstack hlimit
    | false =>
      cases hverdict : classify cs c b with
      | error e =>
        rw [step_of_error hstack hlimit hverdict]
        exact Ends.unmeasured hstack hlimit hverdict
      | ok verdict =>
        rw [step_of_verdict hstack hlimit hverdict]
        exact described_carryOut observe hstack hlimit hverdict

theorem moves_of_step {cs : List Constraint} {c : Config} {observe : Observer σ} {s s' : State σ}
    (h : step cs c observe s = .next s') : Moves cs c observe s s' := by
  have hstep := described_step cs c observe s
  rw [h] at hstep
  exact hstep

theorem ends_of_step {cs : List Constraint} {c : Config} {observe : Observer σ} {s : State σ}
    {o : Outcome σ} (h : step cs c observe s = .halt o) : Ends cs c observe s o := by
  have hstep := described_step cs c observe s
  rw [h] at hstep
  exact hstep

/-- What the relation lists does happen. -/
theorem step_of_moves {cs : List Constraint} {c : Config} {observe : Observer σ} {s s' : State σ}
    (h : Moves cs c observe s s') : step cs c observe s = .next s' := by
  cases h with
  | pruned hstack hlimit hverdict hreply =>
    rw [step_of_verdict hstack hlimit hverdict, carryOut_pruned, respond]
    split
    · rename_i hstop
      exact absurd hstop hreply
    · rfl
    · rfl
  | recorded hstack hlimit hverdict hroom hreply =>
    rw [step_of_verdict hstack hlimit hverdict, carryOut_accepted _ hroom, hreply]
    rfl
  | dropped hstack hlimit hverdict hroom hreply =>
    rw [step_of_verdict hstack hlimit hverdict, carryOut_accepted _ hroom, hreply]
    rfl
  | split hstack hlimit hverdict hreply hhalves =>
    rw [step_of_verdict hstack hlimit hverdict, carryOut_bisecting, hreply]
    simp only [respond, Search.split, hhalves]
  | left hstack hlimit hverdict hreply =>
    rw [step_of_verdict hstack hlimit hverdict, carryOut_bisecting, hreply]
    rfl

/-- So does every way to end that the relation lists. -/
theorem step_of_ends {cs : List Constraint} {c : Config} {observe : Observer σ} {s : State σ}
    {o : Outcome σ} (h : Ends cs c observe s o) : step cs c observe s = .halt o := by
  cases h with
  | exhausted hstack => exact step_of_stack_nil hstack
  | limit hstack hlimit => exact step_of_limit hstack hlimit
  | unmeasured hstack hlimit hverdict => exact step_of_error hstack hlimit hverdict
  | full hstack hlimit hverdict hroom =>
    rw [step_of_verdict hstack hlimit hverdict, carryOut_full _ hroom]
  | stopped hstack hlimit hevent hreply =>
    -- The observer is asked once for each kind of event.
    rcases hevent with ⟨k, hverdict, rfl⟩ | ⟨kept, hverdict, hroom, rfl⟩ |
      ⟨kept, axis, hverdict, rfl⟩
    · rw [step_of_verdict hstack hlimit hverdict, carryOut_pruned, hreply]
      rfl
    · rw [step_of_verdict hstack hlimit hverdict, carryOut_accepted _ hroom, hreply]
      rfl
    · rw [step_of_verdict hstack hlimit hverdict, carryOut_bisecting, hreply]
      rfl
  | unsplit hstack hlimit hverdict hreply hhalves =>
    rw [step_of_verdict hstack hlimit hverdict, carryOut_bisecting, hreply]
    simp only [respond, Search.split, hhalves]

/-- Whatever ends a search without a failure, the boxes recorded so far are its
result. -/
theorem boxes_of_ends {cs : List Constraint} {c : Config} {observe : Observer σ} {s : State σ}
    {o : Outcome σ} {solution : Solution} (h : Ends cs c observe s o)
    (hresult : o.result = .ok solution) : solution.boxes = s.boxes.toList := by
  cases h with
  | exhausted => cases hresult; rfl
  | limit => cases hresult; rfl
  | unmeasured => cases hresult
  | full => cases hresult; rfl
  | stopped => cases hresult; rfl
  | unsplit => cases hresult

/-! ## Runs -/

/-- The search comes from one state to another in some number of steps. -/
abbrev Reaches (cs : List Constraint) (c : Config) (observe : Observer σ) :
    State σ → State σ → Prop :=
  Relation.ReflTransGen fun s s' => step cs c observe s = .next s'

/-- The search that starts in a state ends with an outcome. -/
def Halts (cs : List Constraint) (c : Config) (observe : Observer σ) (s : State σ)
    (o : Outcome σ) : Prop :=
  ∃ s', Reaches cs c observe s s' ∧ step cs c observe s' = .halt o

section Runs

variable {cs : List Constraint} {c : Config} {observe : Observer σ} {s s' : State σ}
  {o o' : Outcome σ}

theorem Halts.of_step (h : step cs c observe s = .halt o) : Halts cs c observe s o :=
  ⟨s, .refl, h⟩

theorem Halts.of_reaches (hr : Reaches cs c observe s s') (h : Halts cs c observe s' o) :
    Halts cs c observe s o := by
  obtain ⟨t, ht, hstep⟩ := h
  exact ⟨t, hr.trans ht, hstep⟩

/-- A search has one outcome only. -/
theorem Halts.unique (h : Halts cs c observe s o) (h' : Halts cs c observe s o') : o = o' := by
  obtain ⟨t, ht, hstep⟩ := h
  obtain ⟨t', ht', hstep'⟩ := h'
  -- The step is a function, so the second run takes the same first step.
  induction ht using Relation.ReflTransGen.head_induction_on with
  | refl =>
    rcases Relation.ReflTransGen.cases_head ht' with rfl | ⟨next, hnext, -⟩
    · rw [hstep] at hstep'
      cases hstep'
      rfl
    · rw [hstep] at hnext
      cases hnext
  | head hac _ ih =>
    rcases Relation.ReflTransGen.cases_head ht' with rfl | ⟨next, hnext, hrest⟩
    · rw [hac] at hstep'
      cases hstep'
    · rw [hac] at hnext
      cases hnext
      exact ih hrest

/-- The outcome that a run computes is the one the search ends with. -/
theorem halts_run (problem : Problem) (c : Config) (observe : Observer σ) (s : State σ) :
    Halts problem.constraints c observe s (run problem c observe s) := by
  induction s using run.induct problem c observe with
  | case1 s outcome h =>
    rw [run, h]
    exact .of_step h
  | case2 s s' h ih =>
    rw [run, h]
    exact .of_reaches (.single h) ih

theorem halts_iff_run (problem : Problem) :
    Halts problem.constraints c observe s o ↔ run problem c observe s = o :=
  ⟨fun h => (halts_run problem c observe s).unique h, fun h => h ▸ halts_run problem c observe s⟩

end Runs

end Search

end Paving
