import Paving.Constraint
import Paving.Search.Observer
import Paving.Search.Solution

/-!
# One step of the search

The search keeps a stack of boxes that remain to be visited. A step takes the
next box, prunes it with the constraints, and classifies what is left: ruled out,
narrow enough to be accepted, or to be bisected. The observer hears of the
decision and may change it; a bisected box puts its halves on the stack.

`State` is all that a step reads and changes, `step` is a function of it, and
`Outcome` is what a halted search leaves behind. Each state also holds the list
of visits so far: the boxes taken from the stack, with the event announced for
each and the answer it got.
-/

set_option autoImplicit false

namespace Paving

namespace Search

universe u

/-! ## Pruning -/

/-- The index of the first constraint that a box violates. -/
def firstViolated (cs : List Constraint) (b : Box) : Option Nat :=
  cs.findIdx? (·.violated b)

/-- Narrows a box by one constraint after the other, up to the first one that
leaves nothing. The constraints are numbered from `i`; the result is the index of
that constraint, or the narrowed box. -/
def contractFrom (i : Nat) : List Constraint → Box → Except Nat Box
  | [], b => .ok b
  | c :: cs, b =>
    let narrowed := c.contract b
    if narrowed.2 then contractFrom (i + 1) cs narrowed.1 else .error i

/-- A box that violates no constraint, or the index of the first one it violates. -/
def evaluate (cs : List Constraint) (b : Box) : Except Nat Box :=
  match firstViolated cs b with
  | some k => .error k
  | none => .ok b

/-- What the constraints leave of a box, or the index of one that rules it out. A
narrowed box is evaluated again: narrowing by a later constraint can show that an
earlier one is violated. -/
def prune (mode : Pruning) (cs : List Constraint) (b : Box) : Except Nat Box := do
  let b ← evaluate cs b
  match mode with
  | .evaluate => return b
  | .contract => evaluate cs (← contractFrom 0 cs b)

/-! ## Classification -/

/-- The decision about a box. -/
inductive Verdict where
  /-- The constraint with this index rules the box out. -/
  | pruned (constraint : Nat)
  /-- What the constraints left is narrow enough. -/
  | accepted (kept : Box)
  /-- What the constraints left is to be split on an axis. -/
  | bisecting (kept : Box) (axis : Nat)

/-- Decides about a box. It fails if what the constraints left has no diameter. -/
def classify (cs : List Constraint) (c : Config) (b : Box) : Except SearchError Verdict :=
  match prune c.pruning cs b with
  | .error k => .ok (.pruned k)
  | .ok kept =>
    match kept.widestDiam with
    | .error e => .error (.ofBox e)
    | .ok (axis, diam) =>
      if diam ≤ c.eps then .ok (.accepted kept) else .ok (.bisecting kept axis)

/-- The halves of a box in the order in which they are explored. -/
def halves (order : HalfOrder) (b : Box) (axis : Nat) : Except SearchError (Box × Box) :=
  match b.bisectAxis axis with
  | .error e => .error (.ofBox e)
  | .ok (lower, upper) =>
    match order with
    | .lowerFirst => .ok (lower, upper)
    | .upperFirst => .ok (upper, lower)

/-! ## States -/

/-- One box taken from the stack: the event announced for it, if the search got
that far, and the observer's answer. -/
structure Visit where
  box : Box
  number : Nat
  event : Option Event
  answer : Option Action

/-- A search under way, with an observer that has states in `σ`. -/
structure State (σ : Type u) where
  /-- The boxes still to be visited, the next one first. -/
  stack : List Box
  /-- The candidates recorded so far. -/
  boxes : Array Box
  /-- The number of boxes visited so far. -/
  branchings : Nat
  observer : σ
  visits : Array Visit

/-- A search that has ended. -/
structure Outcome (σ : Type u) where
  result : Except SearchError Solution
  observer : σ
  visits : Array Visit
  /-- The number of boxes left unvisited. -/
  pending : Nat

variable {σ : Type u}

namespace State

/-- The search before its first step. -/
def initial (b : Box) (observer : σ) : State σ where
  stack := [b]
  boxes := #[]
  branchings := 0
  observer := observer
  visits := #[]

/-- Ends the search with a solution. -/
def finish (s : State σ) (status : Status) : Outcome σ where
  result := .ok ⟨status, s.boxes.toList, s.branchings⟩
  observer := s.observer
  visits := s.visits
  pending := s.stack.length

/-- Ends the search with a failure. -/
def fail (s : State σ) (cause : SearchError) : Outcome σ where
  result := .error cause
  observer := s.observer
  visits := s.visits
  pending := s.stack.length

/-- Takes the box `b` from the stack, which leaves `rest`. -/
def take (s : State σ) (rest : List Box) : State σ :=
  { s with stack := rest, branchings := s.branchings + 1 }

/-- Notes the visit of a box for which no event is announced. -/
def pass (s : State σ) (b : Box) : State σ :=
  { s with visits := s.visits.push ⟨b, s.branchings, none, none⟩ }

/-- Announces an event for the visited box `b`. -/
def announce (s : State σ) (observe : Observer σ) (b : Box) (event : Event) :
    State σ × Option Action :=
  let (observer, answer) := observe s.observer event
  let visit : Visit := ⟨b, s.branchings, some event, answer⟩
  ({ s with observer := observer, visits := s.visits.push visit }, answer)

/-- Records a candidate. -/
def record (s : State σ) (b : Box) : State σ :=
  { s with boxes := s.boxes.push b }

/-- Puts two boxes on the stack, the first one on top. -/
def push (s : State σ) (b₁ b₂ : Box) : State σ :=
  { s with stack := b₁ :: b₂ :: s.stack }

end State

/-! ## The step -/

/-- What a step leads to. -/
inductive Step (σ : Type u) where
  | next (s : State σ)
  | halt (o : Outcome σ)

/-- Goes on as the observer answered: to stop the search, to leave the box, or as
planned. -/
def respond (heard : State σ × Option Action) (planned : State σ → Step σ) : Step σ :=
  match heard.2 with
  | some .stopEarly => .halt (heard.1.finish .stoppedByObserver)
  | some .discard => .next heard.1
  | none => planned heard.1

/-- Puts the halves of a box on the stack. -/
def split (c : Config) (kept : Box) (axis : Nat) (s : State σ) : Step σ :=
  match halves c.order kept axis with
  | .error e => .halt (s.fail e)
  | .ok (first, second) => .next (s.push first second)

/-- Carries out the decision about the box `b`, which has been taken from the
stack. A full list of candidates ends the search before the box is announced. -/
def carryOut (c : Config) (observe : Observer σ) (s : State σ) (b : Box) : Verdict → Step σ
  | .pruned k => respond (s.announce observe b (.pruned b k s.branchings)) .next
  | .accepted kept =>
    if c.refuses s.boxes.size then .halt ((s.pass b).finish .capacityReached)
    else
      respond (s.announce observe b (.accepted kept s.branchings)) fun heard =>
        .next (heard.record kept)
  | .bisecting kept axis =>
    respond (s.announce observe b (.bisecting kept axis s.branchings)) (split c kept axis)

/-- One step: the next box is taken from the stack, unless there is none or the
limit forbids it, and is decided about. -/
def step (cs : List Constraint) (c : Config) (observe : Observer σ) (s : State σ) : Step σ :=
  match s.stack with
  | [] => .halt (s.finish .exhausted)
  | b :: rest =>
    if c.limitReached s.branchings then .halt ({ s with stack := rest }.finish .branchingLimit)
    else
      let taken := s.take rest
      match classify cs c b with
      | .error e => .halt ((taken.pass b).fail e)
      | .ok verdict => carryOut c observe taken b verdict

end Search

end Paving
