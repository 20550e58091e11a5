import Paving.Search.Log

/-!
# A solver that is used again

A solver holds a problem and a capacity, and keeps the result of its last search.
Each search replaces what the one before it left; a search that fails leaves
nothing.
-/

set_option autoImplicit false

namespace Paving

/-- A problem to be solved over different boxes. -/
structure Solver where
  problem : Problem
  capacity : Nat
  capacity_pos : 0 < capacity
  /-- The result of the last search, if it succeeded. -/
  solution : Option Solution

namespace Solver

/-- A solver that has not searched yet. -/
def of (problem : Problem) (capacity : Nat) : Except ConfigError Solver :=
  if h : 0 < capacity then .ok ⟨problem, capacity, h, none⟩ else .error .capacity

/-- The candidates of the last search. -/
def boxes (s : Solver) : List Box :=
  match s.solution with
  | some solution => solution.boxes
  | none => []

/-- The number of boxes that the last search visited. -/
def branchings (s : Solver) : Nat :=
  match s.solution with
  | some solution => solution.branchings
  | none => 0

/-- The status of the last search. -/
def status (s : Solver) : Option Status :=
  s.solution.map Solution.status

/-- The settings of a search with this solver. -/
def config (s : Solver) (eps : Binary64) : Except ConfigError Config := do
  (← Config.ofEps eps).withCapacity s.capacity

/-- What a search leaves: the solver, whether it found a candidate, and the log. -/
structure Attempt where
  solver : Solver
  found : Except SearchError Bool
  log : List LogRecord

/-- The record of a search that succeeded. -/
def finishRecord (solution : Solution) : LogRecord where
  level := .info
  target := "braid_solvers::branch_and_prune::solver"
  message := "search finished"
  fields := [("solutions", toString solution.boxes.length),
    ("branchings", toString solution.branchings), ("status", solution.status.text)]

/-- Searches a box for candidates no wider than `eps`. -/
def solve (s : Solver) (initial : Box) (eps : Binary64) : Attempt :=
  let cleared := { s with solution := none }
  match s.config eps with
  | .error e => ⟨cleared, .error (.config e), []⟩
  | .ok c =>
    let outcome := s.problem.solve initial c
    let log := outcome.log s.problem initial c false
    match outcome.result with
    | .error e => ⟨cleared, .error e, log⟩
    | .ok solution =>
      ⟨{ s with solution := some solution }, .ok solution.found,
        log ++ [finishRecord solution]⟩

end Solver

end Paving
