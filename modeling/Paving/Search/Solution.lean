import Paving.Display
import Paving.Search.Config

/-!
# Results of a search

A finished search reports why it ended, the candidates in the order in which they
were accepted, and the number of boxes it visited. A search that fails names its
cause.
-/

set_option autoImplicit false

namespace Paving

/-! ## Why a search ended -/

/-- Why a search ended. -/
inductive Status where
  /-- Every box was classified. -/
  | exhausted
  /-- A box was accepted while the list of candidates was full. -/
  | capacityReached
  /-- The limit on the number of visited boxes was reached. -/
  | branchingLimit
  /-- The observer asked to stop. -/
  | stoppedByObserver
deriving DecidableEq

/-- The wording of a status. -/
def Status.text : Status → String
  | exhausted => "search exhausted"
  | capacityReached => "solution capacity reached"
  | branchingLimit => "branching limit reached"
  | stoppedByObserver => "stopped by observer"

/-! ## Failures -/

/-- Why a search could not be carried out. A failure on a component of a box is
reported as the failure of that interval. -/
inductive SearchError where
  | interval (cause : IntervalError)
  | box (cause : BoxError)
  | config (cause : ConfigError)
deriving DecidableEq

namespace SearchError

/-- The search failure behind a failure on a box. -/
def ofBox : BoxError → SearchError
  | .interval cause => interval cause
  | cause => box cause

/-- The wording of a cause. -/
def message : SearchError → String
  | interval cause => s!"interval error: {cause.message}"
  | box cause => s!"box error: {cause.message}"
  | config cause => s!"invalid config: {cause.message}"

/-- The cause by name, with its numbers. -/
def detail : SearchError → String
  | interval cause => s!"Interval({cause.detail})"
  | box cause => s!"Box({cause.detail})"
  | config cause => s!"Config({cause.detail})"

end SearchError

/-! ## Solutions -/

/-- The result of a search. -/
structure Solution where
  status : Status
  /-- The candidates in the order in which they were accepted. -/
  boxes : List Box
  /-- The number of boxes visited. -/
  branchings : Nat

namespace Solution

/-- At least one candidate was found. -/
def found (s : Solution) : Bool :=
  !s.boxes.isEmpty

/-- The first line of the report: how many candidates, how many visits, and why
the search ended. -/
def summary (s : Solution) : String :=
  let noun := if s.boxes.length = 1 then "solution" else "solutions"
  s!"{s.boxes.length} candidate {noun} after {s.branchings} branchings ({s.status.text})"

/-- The lines of the report: the summary, then each candidate with its number. -/
def reportLines (p : Precision) (s : Solution) : List String :=
  s.summary :: s.boxes.mapIdx fun i b => s!"  {i + 1}: {b.text p}"

/-- The report of a solution. -/
def report (p : Precision) (s : Solution) : String :=
  "\n".intercalate (s.reportLines p)

/-- The report, if every candidate can be displayed. -/
def report? (p : Precision) (s : Solution) : Option String :=
  if s.boxes.all (Box.displayable p) then some (s.report p) else none

end Solution

end Paving
