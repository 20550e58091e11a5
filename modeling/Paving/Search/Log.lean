import Paving.Log
import Paving.Search.Run

/-!
# The log of a search

The search itself records its start, every visit and its end; an observer can
record the events as well. All of it is read off the outcome of the search: a
visit holds the box taken from the stack and the event announced for it.
-/

set_option autoImplicit false

namespace Paving

universe u

/-- The text of a box in a record. -/
def Box.logText (b : Box) : String :=
  b.text .standard

/-- The record of an event. -/
def Event.logRecord : Event → LogRecord
  | pruned b constraint number =>
    { level := .trace
      target := "braid_observers::trace"
      message := "pruned"
      fields := [("branchings", toString number), ("constraint", toString constraint),
        ("bx", b.logText)] }
  | accepted b number =>
    { level := .debug
      target := "braid_observers::trace"
      message := "accepted"
      fields := [("branchings", toString number), ("bx", b.logText)] }
  | bisecting b axis number =>
    { level := .trace
      target := "braid_observers::trace"
      message := "bisecting"
      fields := [("branchings", toString number), ("axis", toString axis), ("bx", b.logText)] }

namespace Search

/-- The part of the program that searches. -/
def logTarget : String :=
  "braid_solvers::branch_and_prune::search"

/-- The record of the start of a search. -/
def startRecord (problem : Problem) (initial : Box) (c : Config) : LogRecord where
  level := .debug
  target := logTarget
  message := "starting branch-and-prune"
  fields := [("dim", toString initial.dim), ("constraints", toString problem.size),
    ("eps", c.eps.text .explicit)]

/-- The record of the end of a search. -/
def finishRecord (s : Solution) (pending : Nat) : LogRecord where
  level := .debug
  target := logTarget
  message := "branch-and-prune finished"
  fields := [("status", s.status.text), ("solutions", toString s.boxes.length),
    ("branchings", toString s.branchings), ("pending", toString pending)]

/-- The records of a visit, with that of its event if events are recorded. -/
def Visit.records (withEvents : Bool) (v : Visit) : List LogRecord :=
  { level := .trace
    target := logTarget
    message := "visiting box"
    fields := [("branchings", toString v.number), ("bx", v.box.logText)] } ::
  if withEvents then v.event.toList.map Event.logRecord else []

/-- The log of a search, with or without its events. A search that failed has no
record of its end. -/
def Outcome.log {σ : Type u} (o : Outcome σ) (problem : Problem) (initial : Box) (c : Config)
    (withEvents : Bool) : List LogRecord :=
  let finish := match o.result with
    | .ok s => [finishRecord s o.pending]
    | .error _ => []
  startRecord problem initial c :: (o.visits.toList.flatMap (Visit.records withEvents) ++ finish)

end Search

end Paving
