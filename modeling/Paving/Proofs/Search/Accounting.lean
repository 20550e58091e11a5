import Paving.Proofs.Search.Coverage
import Paving.Proofs.Search.Termination
import Paving.Search.Log

/-!
# Accounting of a search

Every visit of a box is announced by one event, except the one that finds the list of
candidates full. `exchanges` lists the events with the answers they got, and
`State.Balanced` is what the lists, counters and the stack of a search under way have in
common: the events carry the numbers `1, 2, …` up to the number of visits, every accepted
box was recorded or discarded, every split put two boxes on the stack and every visit
took one off, and the state of the observer is what it made of the events. A step keeps
the balance (`balanced_of_moves`), and each way to end a search closes the books in its
own way (`settled_of_ends`).
-/

set_option autoImplicit false

namespace Paving

namespace Event

/-- A box was ruled out. -/
def isPruned : Event → Bool
  | pruned _ _ _ => true
  | _ => false

/-- A box was accepted. -/
def isAccepted : Event → Bool
  | accepted _ _ => true
  | _ => false

/-- A box is about to be split. -/
def isBisecting : Event → Bool
  | bisecting _ _ _ => true
  | _ => false

end Event

namespace Search

universe u

variable {σ : Type u}

/-! ## Events and answers -/

/-- An event with the answer it got. -/
abbrev Exchange : Type :=
  Event × Option Action

namespace Exchange

/-- A box was accepted. -/
def isAccepted (x : Exchange) : Bool :=
  x.1.isAccepted

/-- A box was accepted and discarded by the observer. -/
def isDropped (x : Exchange) : Bool :=
  x.1.isAccepted && decide (x.2 = some .discard)

/-- A box was split. -/
def isSplit (x : Exchange) : Bool :=
  x.1.isBisecting && decide (x.2 = none)

end Exchange

/-- The events announced at some visits, in order, with the answers they got. -/
def exchanges (visits : Array Visit) : List Exchange :=
  visits.toList.filterMap fun v => v.event.map fun event => (event, v.answer)

@[simp] theorem exchanges_push_event (visits : Array Visit) (b : Box) (n : Nat) (event : Event)
    (answer : Option Action) :
    exchanges (visits.push ⟨b, n, some event, answer⟩) = exchanges visits ++ [(event, answer)] := by
  simp [exchanges]

@[simp] theorem exchanges_push_silent (visits : Array Visit) (b : Box) (n : Nat)
    (answer : Option Action) :
    exchanges (visits.push ⟨b, n, none, answer⟩) = exchanges visits := by
  simp [exchanges]

/-- The events announced at some visits, in order. -/
def eventsOf (visits : Array Visit) : List Event :=
  (exchanges visits).map Prod.fst

@[simp] theorem eventsOf_push_event (visits : Array Visit) (b : Box) (n : Nat) (event : Event)
    (answer : Option Action) :
    eventsOf (visits.push ⟨b, n, some event, answer⟩) = eventsOf visits ++ [event] := by
  rw [eventsOf, exchanges_push_event, List.map_append]
  rfl

@[simp] theorem eventsOf_push_silent (visits : Array Visit) (b : Box) (n : Nat)
    (answer : Option Action) :
    eventsOf (visits.push ⟨b, n, none, answer⟩) = eventsOf visits := by
  rw [eventsOf, exchanges_push_silent, eventsOf]

/-- What an observer makes of a list of events: its last state, and its answers. -/
def hearAll (observe : Observer σ) : σ → List Event → σ × List (Option Action)
  | s, [] => (s, [])
  | s, event :: events =>
    let heard := hearAll observe (observe s event).1 events
    (heard.1, (observe s event).2 :: heard.2)

theorem hearAll_concat (observe : Observer σ) (s : σ) (events : List Event) (event : Event) :
    hearAll observe s (events ++ [event]) =
      ((observe (hearAll observe s events).1 event).1,
        (hearAll observe s events).2 ++ [(observe (hearAll observe s events).1 event).2]) := by
  induction events generalizing s with
  | nil => rfl
  | cons first events ih => simp only [List.cons_append, hearAll, ih]

theorem countP_concat (p : Exchange → Bool) (xs : List Exchange) (x : Exchange) :
    (xs ++ [x]).countP p = xs.countP p + (p x).toNat := by
  rw [List.countP_append, List.countP_singleton]
  cases p x <;> rfl

/-! ## The balance of a search under way -/

/-- The events, the candidates, the stack and the observer agree with the number of
visits. -/
structure State.Balanced (s : State σ) (observe : Observer σ) (start : σ) : Prop where
  numbers : (exchanges s.visits).map (fun x => x.1.number) = List.range' 1 s.branchings
  accepted : (exchanges s.visits).countP Exchange.isAccepted =
    s.boxes.size + (exchanges s.visits).countP Exchange.isDropped
  stack : s.stack.length + s.branchings = 1 + 2 * (exchanges s.visits).countP Exchange.isSplit
  heard : hearAll observe start ((exchanges s.visits).map Prod.fst) =
    (s.observer, (exchanges s.visits).map Prod.snd)

section Balance

variable {cs : List Constraint} {c : Config} {observe : Observer σ} {start : σ} {s s' : State σ}
  {b : Box} {rest : List Box} {event : Event}

theorem balanced_initial (initial : Box) (observe : Observer σ) (start : σ) :
    (State.initial initial start).Balanced observe start := by
  constructor
  · rfl
  · rfl
  · rfl
  · rfl

theorem exchanges_hear : exchanges (s.hear observe rest b event).visits =
    exchanges s.visits ++ [(event, s.reply observe event)] := by
  rw [visits_hear, exchanges_push_event]

/-- An event with the next number is the next in the list. -/
theorem numbers_hear (hs : s.Balanced observe start) (hnumber : event.number = s.branchings + 1) :
    (exchanges (s.hear observe rest b event).visits).map (fun x => x.1.number) =
      List.range' 1 (s.branchings + 1) := by
  rw [exchanges_hear, List.map_append, hs.numbers, List.map_singleton, hnumber,
    List.range'_concat, Nat.one_mul, Nat.add_comm 1]

/-- The observer hears one event more. -/
theorem heard_hear (hs : s.Balanced observe start) :
    hearAll observe start ((exchanges (s.hear observe rest b event).visits).map Prod.fst) =
      ((s.hear observe rest b event).observer,
        (exchanges (s.hear observe rest b event).visits).map Prod.snd) := by
  rw [exchanges_hear, List.map_append, List.map_append, List.map_singleton, List.map_singleton,
    hearAll_concat, hs.heard]
  rfl

/-- Hearing of the next box keeps the balance, if what becomes of the candidates and the
stack is what the exchange says: one candidate more for an accepted box that is not
dropped, two boxes more for a split. -/
theorem State.Balanced.hear (hs : s.Balanced observe start) (hstack : s.stack = b :: rest)
    (hnumber : event.number = s.branchings + 1) (stack : List Box) (boxes : Array Box)
    (hboxes : boxes.size + (Exchange.isDropped (event, s.reply observe event)).toNat =
      s.boxes.size + (Exchange.isAccepted (event, s.reply observe event)).toNat)
    (hlength : stack.length =
      rest.length + 2 * (Exchange.isSplit (event, s.reply observe event)).toNat) :
    State.Balanced { s.hear observe rest b event with stack := stack, boxes := boxes }
      observe start := by
  refine ⟨numbers_hear hs hnumber, ?_, ?_, heard_hear hs⟩
  · rw [exchanges_hear, countP_concat, countP_concat, hs.accepted]
    show _ = boxes.size + _
    omega
  · rw [exchanges_hear, countP_concat, branchings_hear]
    have hbefore := hs.stack
    rw [hstack, List.length_cons] at hbefore
    show stack.length + _ = _
    omega

/-- One step keeps the balance. -/
theorem balanced_of_moves (h : Moves cs c observe s s') (hs : s.Balanced observe start) :
    s'.Balanced observe start := by
  cases h with
  | pruned hstack => exact hs.hear hstack rfl _ _ rfl rfl
  | recorded hstack _ _ _ hreply =>
    refine hs.hear hstack rfl _ _ ?_ rfl
    rw [hreply, Array.size_push]
    rfl
  | dropped hstack _ _ _ hreply =>
    refine hs.hear hstack rfl _ _ ?_ rfl
    rw [hreply]
    rfl
  | split hstack _ _ hreply _ =>
    refine hs.hear hstack rfl _ _ rfl ?_
    rw [hreply]
    rfl
  | left hstack _ _ hreply =>
    refine hs.hear hstack rfl _ _ rfl ?_
    rw [hreply]
    rfl

/-- So does a run. -/
theorem balanced_of_reaches (h : Reaches cs c observe s s') (hs : s.Balanced observe start) :
    s'.Balanced observe start := by
  induction h with
  | refl => exact hs
  | tail _ hstep ih => exact balanced_of_moves (moves_of_step hstep) ih

end Balance

/-! ## The books of a search that has ended -/

/-- The observer stopped the search when an accepted box was announced. -/
def stoppedOnAccepted (status : Status) (xs : List Exchange) : Bool :=
  decide (status = .stoppedByObserver) && xs.getLast?.any Exchange.isAccepted

/-- The number of boxes taken from the stack: one for each visit, and one more that the
limit forbids to visit. -/
def boxesTaken (solution : Solution) : Nat :=
  solution.branchings + (decide (solution.status = .branchingLimit)).toNat

/-- What a search that ended with a solution has announced, recorded and left. -/
structure Outcome.Settled (o : Outcome σ) (solution : Solution) (observe : Observer σ)
    (start : σ) : Prop where
  /-- The events are numbered from one. -/
  number_eq : ∀ k x, (exchanges o.visits)[k]? = some x → x.1.number = k + 1
  /-- Each visit has an event, except the one that finds no room. -/
  length_eq : (exchanges o.visits).length + (decide (solution.status = .capacityReached)).toNat =
    solution.branchings
  /-- An accepted box is recorded or dropped, unless the search is stopped there. -/
  accepted_eq : (exchanges o.visits).countP Exchange.isAccepted =
    solution.boxes.length + (exchanges o.visits).countP Exchange.isDropped +
      (stoppedOnAccepted solution.status (exchanges o.visits)).toNat
  /-- A split puts two boxes on the stack. -/
  pending_eq : o.pending + boxesTaken solution =
    1 + 2 * (exchanges o.visits).countP Exchange.isSplit
  /-- The observer has heard these events, and these are its answers. -/
  heard_eq : hearAll observe start ((exchanges o.visits).map Prod.fst) =
    (o.observer, (exchanges o.visits).map Prod.snd)

theorem length_of_range {xs : List Exchange} {n : Nat}
    (h : xs.map (fun x => x.1.number) = List.range' 1 n) : xs.length = n := by
  rw [← List.length_map (fun x : Exchange => x.1.number), h, List.length_range']

/-- Entries with the numbers `1, 2, …` have the number after their position. -/
theorem number_of_range {xs : List Exchange} {n : Nat}
    (h : xs.map (fun x => x.1.number) = List.range' 1 n) {k : Nat} {x : Exchange}
    (hx : xs[k]? = some x) : x.1.number = k + 1 := by
  have hnumber : (List.range' 1 n)[k]? = some x.1.number := by
    rw [← h, List.getElem?_map, hx]
    rfl
  rw [List.getElem?_range'] at hnumber
  · rw [Option.some.injEq] at hnumber
    omega
  · rw [List.getElem?_eq_some_iff] at hx
    obtain ⟨hk, -⟩ := hx
    rw [length_of_range h] at hk
    exact hk

section Settling

variable {cs : List Constraint} {c : Config} {observe : Observer σ} {start : σ} {s : State σ}
  {b : Box} {rest : List Box} {event : Event} {o : Outcome σ} {solution : Solution}

/-- The books of a search that found no room for the next box: its visit is counted and
has no event. -/
theorem settled_full (hs : s.Balanced observe start) (hstack : s.stack = b :: rest) :
    Outcome.Settled (((s.take rest).pass b).finish .capacityReached)
      ⟨.capacityReached, s.boxes.toList, s.branchings + 1⟩ observe start := by
  have hsame : exchanges (((s.take rest).pass b).finish .capacityReached).visits =
      exchanges s.visits := exchanges_push_silent s.visits b (s.branchings + 1) none
  have hpending := hs.stack
  rw [hstack, List.length_cons] at hpending
  constructor
  · intro k x hx
    rw [hsame] at hx
    exact number_of_range hs.numbers hx
  · rw [hsame, length_of_range hs.numbers]
    rfl
  · rw [hsame]
    exact hs.accepted
  · rw [hsame, ← hpending]
    show rest.length + (s.branchings + 1) = rest.length + 1 + s.branchings
    omega
  · rw [hsame]
    exact hs.heard

/-- The books of a search that its observer stopped: the last event is counted, and
nothing came of it. -/
theorem settled_stopped (hs : s.Balanced observe start) (hstack : s.stack = b :: rest)
    (hnumber : event.number = s.branchings + 1)
    (hreply : s.reply observe event = some .stopEarly) :
    Outcome.Settled ((s.hear observe rest b event).finish .stoppedByObserver)
      ⟨.stoppedByObserver, s.boxes.toList, s.branchings + 1⟩ observe start := by
  have hlast : exchanges ((s.hear observe rest b event).finish .stoppedByObserver).visits =
      exchanges s.visits ++ [(event, some .stopEarly)] := by
    rw [← hreply]
    exact exchanges_hear
  have hpending := hs.stack
  rw [hstack, List.length_cons] at hpending
  have hnumbers : (exchanges (s.hear observe rest b event).visits).map (fun x => x.1.number) =
      List.range' 1 (s.branchings + 1) := numbers_hear hs hnumber
  constructor
  · intro k x hx
    exact number_of_range hnumbers hx
  · exact length_of_range hnumbers
  · rw [hlast, countP_concat, countP_concat, hs.accepted]
    have hdropped : Exchange.isDropped (event, some .stopEarly) = false := Bool.and_false _
    have hstopped : stoppedOnAccepted .stoppedByObserver
        (exchanges s.visits ++ [(event, some .stopEarly)]) =
          Exchange.isAccepted (event, some .stopEarly) := by
      rw [stoppedOnAccepted, List.getLast?_concat]
      exact Bool.true_and _
    rw [hdropped, hstopped]
    rfl
  · have hsplit : Exchange.isSplit (event, some .stopEarly) = false := Bool.and_false _
    rw [hlast, countP_concat, hsplit]
    show rest.length + (s.branchings + 1) =
      1 + 2 * ((exchanges s.visits).countP Exchange.isSplit + 0)
    omega
  · exact heard_hear hs

/-- However a search ends with a solution, its books are settled. -/
theorem settled_of_ends (h : Ends cs c observe s o) (hs : s.Balanced observe start)
    (hresult : o.result = .ok solution) : o.Settled solution observe start := by
  have hlength := length_of_range hs.numbers
  cases h with
  | unmeasured => cases hresult
  | unsplit => cases hresult
  | exhausted =>
    cases hresult
    exact ⟨fun k x => number_of_range hs.numbers, hlength, hs.accepted, hs.stack, hs.heard⟩
  | @limit _ rest hstack =>
    cases hresult
    refine ⟨fun k x => number_of_range hs.numbers, hlength, hs.accepted, ?_, hs.heard⟩
    have hpending := hs.stack
    rw [hstack, List.length_cons] at hpending
    show rest.length + (s.branchings + 1) = 1 + 2 * (exchanges s.visits).countP Exchange.isSplit
    omega
  | full hstack =>
    cases hresult
    exact settled_full hs hstack
  | stopped hstack _ hevent hreply =>
    cases hresult
    refine settled_stopped hs hstack ?_ hreply
    rcases hevent with ⟨_, -, rfl⟩ | ⟨_, -, -, rfl⟩ | ⟨_, _, -, rfl⟩
    · rfl
    · rfl
    · rfl

/-- A search that ends with a solution has settled its books. -/
theorem settled_of_halts {initial : Box} (h : Halts cs c observe (.initial initial start) o)
    (hresult : o.result = .ok solution) : o.Settled solution observe start := by
  obtain ⟨s, hs, hstep⟩ := h
  exact settled_of_ends (ends_of_step hstep)
    (balanced_of_reaches hs (balanced_initial initial observe start)) hresult

/-- The log of a search that ends with a solution ends with the record of it. -/
theorem getLast?_log (problem : Problem) (initial : Box) (c : Config) (withEvents : Bool)
    (hresult : o.result = .ok solution) :
    (o.log problem initial c withEvents).getLast? = some (finishRecord solution o.pending) := by
  rw [Outcome.log, hresult, ← List.cons_append]
  exact List.getLast?_concat

end Settling

/-! ## Counting events -/

/-- An event counts once, under its kind. -/
theorem count_eq (s : Stats) (event : Event) :
    s.count event =
      ⟨s.pruned + if event.isPruned then 1 else 0, s.accepted + if event.isAccepted then 1 else 0,
        s.bisected + if event.isBisecting then 1 else 0⟩ := by
  cases event with
  | pruned => rfl
  | accepted => rfl
  | bisecting => rfl

/-- The counter counts all events, each under its kind, and answers none of them. -/
theorem hearAll_stats (s : Stats) (events : List Event) :
    hearAll Stats.observer s events =
      (⟨s.pruned + events.countP Event.isPruned, s.accepted + events.countP Event.isAccepted,
        s.bisected + events.countP Event.isBisecting⟩, events.map fun _ => none) := by
  induction events generalizing s with
  | nil => rfl
  | cons event events ih =>
    simp only [hearAll, Stats.observer, count_eq, ih, List.countP_cons, List.map_cons,
      Nat.add_comm, Nat.add_left_comm]

theorem total_count (s : Stats) (event : Event) : (s.count event).total = s.total + 1 := by
  cases event with
  | pruned =>
    show s.pruned + 1 + s.accepted + s.bisected = s.pruned + s.accepted + s.bisected + 1
    omega
  | accepted =>
    show s.pruned + (s.accepted + 1) + s.bisected = s.pruned + s.accepted + s.bisected + 1
    omega
  | bisecting => rfl

/-- The total is the number of events. -/
theorem total_hearAll (s : Stats) (events : List Event) :
    (hearAll Stats.observer s events).1.total = s.total + events.length := by
  induction events generalizing s with
  | nil => rfl
  | cons event events ih =>
    calc (hearAll Stats.observer s (event :: events)).1.total
        = (s.count event).total + events.length := ih (s.count event)
      _ = s.total + (event :: events).length := by
          rw [total_count, List.length_cons]
          omega

/-- Where no event got an answer, every box that was to be split was split. -/
theorem countP_isSplit {xs : List Exchange} (h : xs.map Prod.snd = xs.map fun _ => none) :
    xs.countP Exchange.isSplit = (xs.map Prod.fst).countP Event.isBisecting := by
  rw [List.countP_map]
  refine List.countP_congr fun x hx => ?_
  have hnone : x.2 = none := List.map_inj_left.1 h x hx
  simp [Exchange.isSplit, hnone]

/-- Nothing is pending at the end of an exhausted search. -/
theorem pending_of_exhausted {cs : List Constraint} {c : Config} {observe : Observer σ}
    {s : State σ} {o : Outcome σ} {solution : Solution} (h : Halts cs c observe s o)
    (hresult : o.result = .ok solution) (hstatus : solution.status = .exhausted) :
    o.pending = 0 := by
  obtain ⟨t, -, hstep⟩ := h
  obtain ⟨hstack, rfl⟩ := exhausted_of_step hstep hresult hstatus
  show t.stack.length = 0
  rw [hstack, List.length_nil]

/-- The counts of an exhausted search with the counter as its observer. -/
theorem stats_of_halts {cs : List Constraint} {c : Config} {initial : Box} {o : Outcome Stats}
    {solution : Solution} (h : Halts cs c Stats.observer (.initial initial .zero) o)
    (hresult : o.result = .ok solution) (hstatus : solution.status = .exhausted) :
    o.observer.pruned + o.observer.accepted = o.observer.bisected + 1 ∧
      o.observer.total = solution.branchings := by
  have hsettled := settled_of_halts h hresult
  have hheard := hsettled.heard_eq
  have htotal : o.observer.total = solution.branchings := by
    have hcount := total_hearAll .zero ((exchanges o.visits).map Prod.fst)
    have hlength := hsettled.length_eq
    rw [hheard, List.length_map] at hcount
    rw [hstatus] at hlength
    exact hcount.trans ((Nat.zero_add _).trans hlength)
  rw [hearAll_stats, List.map_map, Prod.mk.injEq] at hheard
  obtain ⟨hcounts, hanswers⟩ := hheard
  -- Every box that was to be split was split, and no box is left.
  have hpending := hsettled.pending_eq
  rw [pending_of_exhausted h hresult hstatus, countP_isSplit hanswers.symm, boxesTaken,
    hstatus] at hpending
  have hbisected : o.observer.bisected =
      ((exchanges o.visits).map Prod.fst).countP Event.isBisecting := by
    rw [← hcounts]
    exact Nat.zero_add _
  refine ⟨?_, htotal⟩
  have hvisits : 0 + (solution.branchings + 0) = 1 + 2 * o.observer.bisected := by
    rw [hbisected]
    exact hpending
  rw [← htotal, Stats.total] at hvisits
  omega

/-! ## The books -/

/-- The books of every search that ends with a solution, whatever the constraints, the
settings and the observer. The events are numbered from one and there is one for each
visit, except for the visit that finds no room; each accepted box is recorded, dropped or
the last one; each split puts two boxes on the stack, and the last record of the log says
how many are left. The counts of an exhausted search follow. -/
theorem search_settles_books (cs : List Constraint) (c : Config) (initial : Box) :
    (∀ {σ : Type u} (observe : Observer σ) (start : σ) (o : Outcome σ) (solution : Solution),
        Halts cs c observe (.initial initial start) o → o.result = .ok solution →
          o.Settled solution observe start ∧
            ∀ (problem : Problem) (withEvents : Bool),
              (o.log problem initial c withEvents).getLast? = some (finishRecord solution
                (1 + 2 * (exchanges o.visits).countP Exchange.isSplit - boxesTaken solution))) ∧
      (∀ (o : Outcome Stats) (solution : Solution),
        Halts cs c Stats.observer (.initial initial .zero) o → o.result = .ok solution →
          solution.status = .exhausted →
            o.observer.pruned + o.observer.accepted = o.observer.bisected + 1 ∧
              o.observer.total = solution.branchings) ∧
      ∀ {σ : Type u} (problem : Problem) (observe : Observer σ) (start : σ),
        problem.constraints = cs →
          Halts cs c observe (.initial initial start) (problem.search initial c observe start) := by
  refine ⟨?_, fun o solution h => stats_of_halts h, ?_⟩
  · intro σ observe start o solution h hresult
    have hsettled := settled_of_halts h hresult
    refine ⟨hsettled, fun problem withEvents => ?_⟩
    rw [getLast?_log problem initial c withEvents hresult, ← hsettled.pending_eq,
      Nat.add_sub_cancel]
  · rintro σ problem observe start rfl
    exact halts_run problem c observe (.initial initial start)

/-- The search of `[-1, 1]` for points that are not left of zero, with tolerance one half,
visits seven boxes: it splits three of them, rules out one quarter and accepts the other
three. Nothing is pending at its end. -/
theorem quarters_settled : ∃ o solution,
    Halts [notLeftOfZero] halfConfig Stats.observer (.initial Box.unitSegment .zero) o ∧
      o.result = .ok solution ∧ solution.status = .exhausted ∧ solution.branchings = 7 ∧
      o.observer = ⟨1, 3, 3⟩ ∧ o.Settled solution Stats.observer .zero ∧
      o.observer.pruned + o.observer.accepted = o.observer.bisected + 1 ∧
      o.observer.total = solution.branchings := by
  have hsteps : (steps [notLeftOfZero] halfConfig Stats.observer 8
      (.initial Box.unitSegment .zero)).endsWith (fun o solution =>
        decide (solution.status = .exhausted ∧ solution.branchings = 7 ∧
          o.observer = ⟨1, 3, 3⟩)) = true := by
    decide +kernel
  obtain ⟨o, solution, hhalts, hresult, htest⟩ := exists_of_endsWith hsteps
  obtain ⟨hstatus, hseven, hcounts⟩ := of_decide_eq_true htest
  have hbooks := search_settles_books.{0} [notLeftOfZero] halfConfig Box.unitSegment
  exact ⟨o, solution, hhalts, hresult, hstatus, hseven, hcounts,
    (hbooks.1 Stats.observer .zero o solution hhalts hresult).1,
    hbooks.2.1 o solution hhalts hresult hstatus⟩

end Search

end Paving
