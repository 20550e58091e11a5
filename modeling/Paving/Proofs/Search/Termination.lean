import Paving.Proofs.Constraint
import Paving.Proofs.Search.Steps

/-!
# The search ends

Every step that goes on lowers the work that is left, so a search under narrowing
constraints ends after no more steps than that, and the outcome it ends with is the
one that `run` computes (`steps_eq_halt_run`). For the initial state the work is
less than twice the number of cells of the initial box; neither the tolerance, nor
a limit, nor boundedness of the box matters, and no observer can prolong the search
(`search_ends`).
-/

set_option autoImplicit false

namespace Paving

namespace Search

universe u

variable {σ : Type u}

/-- What `n` steps lead to, unless the search halts before. -/
def steps (cs : List Constraint) (c : Config) (observe : Observer σ) : Nat → State σ → Step σ
  | 0, s => .next s
  | n + 1, s =>
    match step cs c observe s with
    | .halt o => .halt o
    | .next s' => steps cs c observe n s'

/-- More steps than there is work left bring the search to its end. -/
theorem steps_eq_halt_run (problem : Problem) (c : Config) (observe : Observer σ) :
    ∀ (n : Nat) (s : State σ), s.work < n →
      steps problem.constraints c observe n s = .halt (run problem c observe s) := by
  intro n
  induction n with
  | zero =>
    intro s hwork
    exact absurd hwork (Nat.not_lt_zero _)
  | succ n ih =>
    intro s hwork
    rw [run]
    rw [steps]
    -- Every step that goes on leaves less work, so the remaining steps suffice for it.
    cases hstep : step problem.constraints c observe s with
    | halt o => rfl
    | next s' =>
      have hless := work_lt_of_step problem.narrows hstep
      exact ih s' (by omega)

/-- A search that halts after some number of steps has that outcome. -/
theorem halts_of_steps {cs : List Constraint} {c : Config} {observe : Observer σ} {n : Nat}
    {s : State σ} {o : Outcome σ} (h : steps cs c observe n s = .halt o) :
    Halts cs c observe s o := by
  induction n generalizing s with
  | zero => cases h
  | succ n ih =>
    rw [steps] at h
    cases hstep : step cs c observe s with
    | halt o' =>
      rw [hstep] at h
      cases h
      exact .of_step hstep
    | next s' =>
      rw [hstep] at h
      exact .of_reaches (.single hstep) (ih h)

/-- The outcome of a search can be found by taking enough steps. -/
theorem search_eq_of_steps (problem : Problem) {initial : Box} {c : Config} {observe : Observer σ}
    {start : σ} {n : Nat} {o : Outcome σ}
    (h : steps problem.constraints c observe n (.initial initial start) = .halt o) :
    problem.search initial c observe start = o :=
  (halts_iff_run problem).1 (halts_of_steps h)

/-- The search has ended with a solution that passes a test. -/
def Step.endsWith (test : Outcome σ → Solution → Bool) : Step σ → Bool
  | .next _ => false
  | .halt o =>
    match o.result with
    | .ok solution => test o solution
    | .error _ => false

/-- A solution that some number of steps lead to is the one the search ends with. -/
theorem exists_of_endsWith {cs : List Constraint} {c : Config} {observe : Observer σ} {n : Nat}
    {s : State σ} {test : Outcome σ → Solution → Bool}
    (h : (steps cs c observe n s).endsWith test = true) :
    ∃ o solution, Halts cs c observe s o ∧ o.result = .ok solution ∧ test o solution = true := by
  cases hsteps : steps cs c observe n s with
  | next s' =>
    rw [hsteps] at h
    cases h
  | halt o =>
    rw [hsteps, Step.endsWith] at h
    cases hresult : o.result with
    | error e =>
      rw [hresult] at h
      cases h
    | ok solution =>
      rw [hresult] at h
      exact ⟨o, solution, halts_of_steps hsteps, hresult, h⟩

/-- No search goes on for ever. -/
theorem not_forall_step_eq_next {cs : List Constraint} (hcs : ∀ k ∈ cs, k.Narrows) (c : Config)
    (observe : Observer σ) (f : Nat → State σ) :
    ¬ ∀ n, step cs c observe (f n) = .next (f (n + 1)) := by
  intro hf
  -- Each state of the run has spent one unit of work for each step before it.
  have hbound : ∀ n, (f n).work + n ≤ (f 0).work := by
    intro n
    induction n with
    | zero => exact Nat.le_refl _
    | succ n ih =>
      have hless := work_lt_of_step hcs (hf n)
      omega
  have := hbound ((f 0).work + 1)
  omega

theorem work_initial (initial : Box) (start : σ) :
    (State.initial initial start).work < 2 * initial.cells := by
  have hcells := initial.one_le_cells
  show (2 * initial.cells - 1) + 0 < 2 * initial.cells
  omega

/-- A search under provided constraints ends: after at most twice as many steps as
the initial box has cells it halts, with the outcome of the search, and there is no
infinite run. -/
theorem search_ends {cs : List Constraint} (hcs : ∀ k ∈ cs, k.Provided) (initial : Box)
    (c : Config) (observe : Observer σ) (start : σ) :
    (∃ n ≤ 2 * initial.cells, steps cs c observe n (.initial initial start) =
        .halt ((Problem.ofProvided cs hcs).search initial c observe start)) ∧
      ¬ ∃ f : Nat → State σ, f 0 = .initial initial start ∧
        ∀ n, step cs c observe (f n) = .next (f (n + 1)) := by
  refine ⟨⟨2 * initial.cells, Nat.le_refl _, ?_⟩, ?_⟩
  · exact steps_eq_halt_run (Problem.ofProvided cs hcs) c observe _ _ (work_initial initial start)
  · rintro ⟨f, -, hf⟩
    exact not_forall_step_eq_next (Problem.ofProvided cs hcs).narrows c observe f hf

/-- The settings with tolerance zero. -/
def exactConfig : Config :=
  { Config.standard with eps := Binary64.zero, eps_valid := by decide, overflow := .grow }

/-- The settings with tolerance one half. -/
def halfConfig : Config :=
  { Config.standard with eps := ⟨0x3fe0000000000000⟩, eps_valid := by decide }

/-- The equation `x^2 = 2`. -/
def squareIsTwo : Constraint :=
  .equation (.ofExpr (.sub (.sqr (.var 0)) (.value ⟨0x4000000000000000⟩)))

theorem provided_squareIsTwo : ∀ k ∈ [squareIsTwo], k.Provided := by
  intro k hk
  rw [List.mem_singleton.1 hk]
  exact .expression _

/-- The segment `[1, 2]`, as a box on one axis. -/
def oneToTwo : Box :=
  Box.ofComponents [Interval.ofBounds ⟨0x3ff0000000000000⟩ ⟨0x4000000000000000⟩]
    (List.cons_ne_nil _ _)

/-- The search of `[1, 2]` for the root of two with tolerance zero and without a limit bisects
again and again, and after ten steps five boxes are left to visit. It ends all the same. -/
theorem oneToTwo_search_ends :
    (∀ k ∈ [squareIsTwo], k.Provided) ∧
      (∃ s, steps [squareIsTwo] exactConfig Observer.silent 10 (.initial oneToTwo ()) = .next s ∧
        s.stack.length = 5) ∧
      (∃ n ≤ 2 * oneToTwo.cells,
        steps [squareIsTwo] exactConfig Observer.silent n (.initial oneToTwo ()) =
          .halt ((Problem.ofProvided [squareIsTwo] provided_squareIsTwo).search oneToTwo
            exactConfig Observer.silent ())) ∧
      ¬ ∃ f : Nat → State Unit, f 0 = .initial oneToTwo () ∧
        ∀ n, step [squareIsTwo] exactConfig Observer.silent (f n) = .next (f (n + 1)) := by
  have hgoes : (match steps [squareIsTwo] exactConfig Observer.silent 10 (.initial oneToTwo ()) with
    | .next s => decide (s.stack.length = 5)
    | .halt _ => false) = true := by
    decide +kernel
  obtain ⟨hbound, hnever⟩ :=
    search_ends provided_squareIsTwo oneToTwo exactConfig Observer.silent ()
  split at hgoes
  case h_1 s hs =>
    exact ⟨provided_squareIsTwo, ⟨s, hs, of_decide_eq_true hgoes⟩, hbound, hnever⟩
  case h_2 => cases hgoes

end Search

end Paving
