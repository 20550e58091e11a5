import Paving.Proofs.Box.Tiling
import Paving.Proofs.Search.Accounting
import Paving.Proofs.Search.Candidates

/-!
# The search packs and tiles the initial box

The candidates of a search and the boxes still to be visited pack the initial box. A step
replaces the visited box by nothing, by what the constraints left of it, or by the halves of
that, and each of these packs the visited box, so the packing stays one (`packs_of_moves`).
No two candidates have more in common than a face, whatever the settings and the observer.

When constraints are only evaluated, a visited box is settled as it is, or replaced by its
halves. So the boxes that were ruled out or accepted and the boxes still to be visited tile
the initial box (`tiles_of_moves`), and at the end of an exhausted search the former tile it
alone.
-/

set_option autoImplicit false

namespace Paving

namespace Event

/-- The box that the event settles: it is ruled out or accepted, and not visited again. -/
def settled : Event → Option Box
  | pruned b _ _ => some b
  | accepted b _ => some b
  | bisecting _ _ _ => none

end Event

namespace Search

universe u

variable {σ : Type u}

/-! ## Packings -/

section Packing

variable {cs : List Constraint} {c : Config} {observe : Observer σ} {s s' : State σ}
  {initial b kept first second : Box} {order : HalfOrder} {axis : Nat}

/-- The halves of a box tile it, in whatever order they are explored. -/
theorem tiles_halves (h : halves order b axis = .ok (first, second)) :
    Box.Tiles [first, second] b := by
  rcases bisectAxis_of_halves h with hparts | hparts
  · exact Box.tiles_bisectAxis hparts
  · exact (Box.tiles_bisectAxis hparts).perm (.swap first second [])

/-- One step keeps the candidates and the boxes still to be visited a packing. -/
theorem packs_of_moves (hcs : ∀ k ∈ cs, k.Narrows) (h : Moves cs c observe s s')
    (hs : Box.Packs (s.boxes.toList ++ s.stack) initial) :
    Box.Packs (s'.boxes.toList ++ s'.stack) initial := by
  cases h with
  | pruned hstack | dropped hstack | left hstack =>
    rw [hstack] at hs
    exact hs.replace (Box.packs_nil _)
  | @recorded b kept rest hstack _ hverdict =>
    rw [hstack] at hs
    have hkept : kept ⊆ b := prune_subset hcs (prune_of_accepted hverdict).1
    show Box.Packs ((s.boxes.push kept).toList ++ rest) initial
    rw [Array.toList_push, List.append_assoc]
    exact hs.replace (Box.packs_singleton hkept)
  | split hstack _ hverdict _ hhalves =>
    rw [hstack] at hs
    exact hs.replace ((tiles_halves hhalves).toPacks.mono (bisecting_subset hcs hverdict))

/-- So does a run. -/
theorem packs_of_reaches (hcs : ∀ k ∈ cs, k.Narrows) (h : Reaches cs c observe s s')
    (hs : Box.Packs (s.boxes.toList ++ s.stack) initial) :
    Box.Packs (s'.boxes.toList ++ s'.stack) initial := by
  induction h with
  | refl => exact hs
  | tail _ hstep ih => exact packs_of_moves hcs (moves_of_step hstep) ih

theorem packs_initial (initial : Box) (start : σ) :
    Box.Packs ((State.initial initial start).boxes.toList ++
      (State.initial initial start).stack) initial :=
  (Box.tiles_singleton initial).toPacks

/-- No two candidates have more in common than a face. -/
theorem pairwise_of_halts {start : σ} {o : Outcome σ} {solution : Solution}
    (hcs : ∀ k ∈ cs, k.Narrows) (h : Halts cs c observe (.initial initial start) o)
    (hresult : o.result = .ok solution) : solution.boxes.Pairwise Box.AlmostDisjoint := by
  obtain ⟨s, hs, hstep⟩ := h
  rw [boxes_of_ends (ends_of_step hstep) hresult]
  have hpacks := packs_of_reaches hcs hs (packs_initial initial start)
  exact (List.pairwise_append.1 hpacks.apart).1

end Packing

/-! ## Tilings -/

/-- The boxes that were ruled out or accepted at some visits, in order. -/
def settledBoxes (visits : Array Visit) : List Box :=
  (eventsOf visits).filterMap Event.settled

section Tiling

variable {cs : List Constraint} {c : Config} {s s' : State Unit} {initial b kept : Box}

theorem settledBoxes_hear (s : State Unit) (rest : List Box) (b : Box) (event : Event) :
    settledBoxes (s.hear Observer.silent rest b event).visits =
      settledBoxes s.visits ++ event.settled.toList := by
  rw [settledBoxes, visits_hear, eventsOf_push_event, List.filterMap_append]
  cases hevent : event.settled with
  | none => rw [List.filterMap_cons_none hevent]; rfl
  | some settled => rw [List.filterMap_cons_some hevent]; rfl

/-- Evaluation leaves the box as it is. -/
theorem eq_of_prune_evaluate (hmode : c.pruning = .evaluate)
    (h : prune c.pruning cs b = .ok kept) : kept = b := by
  rw [hmode, prune_evaluate] at h
  exact eq_of_evaluate h

/-- When constraints are only evaluated, one step keeps the settled boxes and those still to
be visited a tiling. -/
theorem tiles_of_moves (hmode : c.pruning = .evaluate) (h : Moves cs c Observer.silent s s')
    (hs : Box.Tiles (settledBoxes s.visits ++ s.stack) initial) :
    Box.Tiles (settledBoxes s'.visits ++ s'.stack) initial := by
  cases h with
  | @pruned b rest k hstack =>
    rw [hstack] at hs
    rw [settledBoxes_hear, List.append_assoc]
    exact hs
  | @recorded b kept rest hstack _ hverdict =>
    have hkept := eq_of_prune_evaluate hmode (prune_of_accepted hverdict).1
    subst hkept
    rw [hstack] at hs
    show Box.Tiles (settledBoxes (s.hear Observer.silent rest kept _).visits ++ rest) initial
    rw [settledBoxes_hear, List.append_assoc]
    exact hs
  | dropped _ _ _ _ hreply => cases hreply
  | @split b kept first second rest axis hstack _ hverdict _ hhalves =>
    have hkept := eq_of_prune_evaluate hmode (prune_of_bisecting hverdict).1
    subst hkept
    rw [hstack] at hs
    show Box.Tiles (settledBoxes (s.hear Observer.silent rest kept _).visits ++
      ([first, second] ++ rest)) initial
    rw [settledBoxes_hear, List.append_assoc]
    exact hs.replace (tiles_halves hhalves)
  | left _ _ _ hreply => cases hreply

/-- So does a run. -/
theorem tiles_of_reaches (hmode : c.pruning = .evaluate)
    (h : Reaches cs c Observer.silent s s')
    (hs : Box.Tiles (settledBoxes s.visits ++ s.stack) initial) :
    Box.Tiles (settledBoxes s'.visits ++ s'.stack) initial := by
  induction h with
  | refl => exact hs
  | tail _ hstep ih => exact tiles_of_moves hmode (moves_of_step hstep) ih

/-- At the end of an exhausted search the settled boxes tile the initial box. -/
theorem tiles_of_halts {o : Outcome Unit} {solution : Solution} (hmode : c.pruning = .evaluate)
    (h : Halts cs c Observer.silent (.initial initial ()) o) (hresult : o.result = .ok solution)
    (hstatus : solution.status = .exhausted) : Box.Tiles (settledBoxes o.visits) initial := by
  obtain ⟨s, hs, hstep⟩ := h
  obtain ⟨hstack, rfl⟩ := exhausted_of_step hstep hresult hstatus
  have htiles := tiles_of_reaches hmode hs (Box.tiles_singleton initial)
  rw [hstack, List.append_nil] at htiles
  exact htiles

end Tiling

/-! ## Results -/

/-- The candidates of a search are almost disjoint from each other, whatever the settings
and the observer, and whatever ended the search. If constraints are only evaluated and a
search without an observer is exhausted, the boxes that it announced as ruled out or accepted
tile the initial box: they lie in it, are almost disjoint from each other, and have all its
points between them. -/
theorem search_tiles_initial_box (problem : Problem) (initial : Box) (c : Config) :
    (∀ {σ : Type u} (observe : Observer σ) (start : σ) (solution : Solution),
        (problem.search initial c observe start).result = .ok solution →
          solution.boxes.Pairwise Box.AlmostDisjoint) ∧
      ∀ solution : Solution, (problem.solve initial c).result = .ok solution →
        solution.status = .exhausted → c.pruning = .evaluate →
          Box.Tiles (settledBoxes (problem.solve initial c).visits) initial := by
  constructor
  · intro σ observe start solution hresult
    exact pairwise_of_halts problem.narrows (halts_run problem c observe _) hresult
  · intro solution hresult hstatus hmode
    exact tiles_of_halts hmode (halts_run problem c Observer.silent _) hresult hstatus

/-- The four quarters of `[-1, 1]`, three of them accepted and one ruled out, tile it. -/
theorem quarters_tile : ∃ solution,
    (notLeftProblem.solve Box.unitSegment halfConfig).result = .ok solution ∧
      solution.status = .exhausted ∧ solution.boxes.length = 3 ∧
      solution.boxes.Pairwise Box.AlmostDisjoint ∧
      (settledBoxes (notLeftProblem.solve Box.unitSegment halfConfig).visits).length = 4 ∧
      Box.Tiles (settledBoxes (notLeftProblem.solve Box.unitSegment halfConfig).visits)
        Box.unitSegment := by
  have hsteps : (steps notLeftProblem.constraints halfConfig Observer.silent 8
      (.initial Box.unitSegment ())).endsWith (fun o solution =>
        decide (solution.status = .exhausted ∧ solution.boxes.length = 3 ∧
          (settledBoxes o.visits).length = 4)) = true := by
    decide +kernel
  obtain ⟨o, solution, hhalts, hresult, htest⟩ := exists_of_endsWith hsteps
  obtain ⟨hstatus, hthree, hfour⟩ := of_decide_eq_true htest
  have hsolve : notLeftProblem.solve Box.unitSegment halfConfig = o :=
    (halts_iff_run notLeftProblem).1 hhalts
  rw [← hsolve] at hresult hfour
  obtain ⟨hpairs, htiles⟩ :=
    search_tiles_initial_box.{0} notLeftProblem Box.unitSegment halfConfig
  exact ⟨solution, hresult, hstatus, hthree, hpairs Observer.silent () solution hresult, hfour,
    htiles solution hresult hstatus rfl⟩

end Search

end Paving
