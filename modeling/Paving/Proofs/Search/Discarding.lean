import Paving.Proofs.Search.Mirror
import Paving.Proofs.Search.Observation

/-!
# Observers that discard

An observer that discards decides by what an event is about: its kind, its box and its axis.
`Exploration` is the tree of a search with the boxes that are split at its nodes, and an
observer that discards leaves `Exploration.thin` of it: the leaves it discards and the nodes it
does not let be split are gone, with everything below them, and nothing else is
(`reaches_of_explorationOf`). `Lineage` is a candidate with the boxes that were split on the way
to it, so the candidates that are left are those of which neither the candidate itself nor a box
of its lineage is discarded (`lineages_thin`).
-/

set_option autoImplicit false

namespace Paving

/-! ## What an event is about -/

/-- What an event is about, without the constraint and the number of the visit. -/
inductive Subject where
  | pruned (box : Box)
  | accepted (box : Box)
  | bisecting (box : Box) (axis : Nat)

/-- The kind, box and axis of an event. -/
def Event.subject : Event → Subject
  | pruned b _ _ => .pruned b
  | accepted b _ => .accepted b
  | bisecting b axis _ => .bisecting b axis

/-- The observer that discards by what an event is about, and never stops the search. -/
def Observer.discarding (discards : Subject → Bool) : Observer Unit :=
  fun _ event => ((), if discards event.subject then some .discard else none)

namespace Search

section Reply

variable {discards : Subject → Bool} {s : State Unit} {event : Event}

theorem reply_discarding_of_true (h : discards event.subject = true) :
    s.reply (Observer.discarding discards) event = some .discard :=
  if_pos h

theorem reply_discarding_of_false (h : discards event.subject = false) :
    s.reply (Observer.discarding discards) event = none :=
  if_neg (by rw [h]; exact Bool.false_ne_true)

theorem reply_discarding_ne_stopEarly (discards : Subject → Bool) (s : State Unit) (event : Event) :
    s.reply (Observer.discarding discards) event ≠ some .stopEarly := by
  cases h : discards event.subject with
  | true => simp [reply_discarding_of_true h]
  | false => simp [reply_discarding_of_false h]

end Reply

/-! ## Explorations -/

/-- What a search makes of a box: nothing, a candidate, or two halves that are explored one
after the other. -/
inductive Exploration where
  | gone
  | found (kept : Box)
  | split (kept : Box) (axis : Nat) (first second : Exploration)

/-- The finite exploration of a box by a search in which nothing fails. -/
inductive ExplorationOf (cs : List Constraint) (c : Config) : Box → Exploration → Prop
  | gone {b : Box} {k : Nat} (h : classify cs c b = .ok (.pruned k)) : ExplorationOf cs c b .gone
  | found {b kept : Box} (h : classify cs c b = .ok (.accepted kept)) :
      ExplorationOf cs c b (.found kept)
  | split {b kept first second : Box} {axis : Nat} {e₁ e₂ : Exploration}
      (h : classify cs c b = .ok (.bisecting kept axis))
      (hhalves : halves c.order kept axis = .ok (first, second))
      (hfirst : ExplorationOf cs c first e₁) (hsecond : ExplorationOf cs c second e₂) :
      ExplorationOf cs c b (.split kept axis e₁ e₂)

/-- A candidate with the boxes that were split on the way to it and the axes they were split
on, the initial box first. -/
structure Lineage where
  splits : List (Box × Nat)
  kept : Box

namespace Lineage

/-- The lineage with one more box that was split before the others. -/
def below (kept : Box) (axis : Nat) (l : Lineage) : Lineage :=
  ⟨(kept, axis) :: l.splits, l.kept⟩

/-- Neither the candidate nor a box that was split on the way to it is discarded. -/
def survives (discards : Subject → Bool) (l : Lineage) : Bool :=
  !discards (.accepted l.kept) && l.splits.all fun split => !discards (.bisecting split.1 split.2)

theorem survives_below (discards : Subject → Bool) (kept : Box) (axis : Nat) (l : Lineage) :
    (l.below kept axis).survives discards =
      (!discards (.bisecting kept axis) && l.survives discards) :=
  Bool.and_left_comm _ _ _

end Lineage

namespace Exploration

/-- The candidates in the order in which they are found, with their lineages. -/
def lineages : Exploration → List Lineage
  | gone => []
  | found kept => [⟨[], kept⟩]
  | split kept axis first second =>
    (first.lineages ++ second.lineages).map (Lineage.below kept axis)

/-- The candidates in the order in which they are found. -/
def boxes (e : Exploration) : List Box :=
  e.lineages.map Lineage.kept

/-- The number of visited boxes. -/
def visits : Exploration → Nat
  | gone => 1
  | found _ => 1
  | split _ _ first second => 1 + first.visits + second.visits

/-- What is left of an exploration under an observer that discards: a discarded box is visited,
but nothing comes of it. -/
def thin (discards : Subject → Bool) : Exploration → Exploration
  | gone => gone
  | found kept => if discards (.accepted kept) then gone else found kept
  | split kept axis first second =>
    if discards (.bisecting kept axis) then gone
    else split kept axis (first.thin discards) (second.thin discards)

theorem boxes_split (kept : Box) (axis : Nat) (first second : Exploration) :
    (split kept axis first second).boxes = first.boxes ++ second.boxes := by
  rw [boxes, lineages, List.map_map, List.map_append]
  rfl

theorem one_le_visits (e : Exploration) : 1 ≤ e.visits := by
  cases e with
  | gone => exact Nat.le_refl 1
  | found kept => exact Nat.le_refl 1
  | split kept axis first second =>
    rw [visits]
    omega

section Thin

variable (discards : Subject → Bool)

/-- What is left are the lineages of which nothing is discarded, in the same order. -/
theorem lineages_thin (e : Exploration) :
    (e.thin discards).lineages = e.lineages.filter (Lineage.survives discards) := by
  induction e with
  | gone => rfl
  | found kept =>
    cases h : discards (.accepted kept) with
    | true => simp [thin, lineages, Lineage.survives, h]
    | false => simp [thin, lineages, Lineage.survives, h]
  | split kept axis first second ih₁ ih₂ =>
    rw [thin, lineages, List.filter_map]
    cases h : discards (.bisecting kept axis) with
    | true =>
      -- Every lineage below passes through the discarded box.
      have hnone : ∀ l ∈ first.lineages ++ second.lineages,
          ¬ (Lineage.survives discards ∘ Lineage.below kept axis) l = true := by
        intro l _
        rw [Function.comp_apply, Lineage.survives_below, h]
        exact Bool.false_ne_true
      rw [if_pos rfl, List.filter_eq_nil_iff.2 hnone]
      rfl
    | false =>
      have hsame : Lineage.survives discards ∘ Lineage.below kept axis =
          Lineage.survives discards := by
        funext l
        rw [Function.comp_apply, Lineage.survives_below, h]
        exact Bool.true_and _
      rw [if_neg Bool.false_ne_true, lineages, ih₁, ih₂, hsame, List.filter_append]

theorem visits_thin_le (e : Exploration) : (e.thin discards).visits ≤ e.visits := by
  induction e with
  | gone => exact Nat.le_refl 1
  | found kept =>
    rw [thin]
    split
    · exact Nat.le_refl 1
    · exact Nat.le_refl 1
  | split kept axis first second ih₁ ih₂ =>
    rw [thin]
    split
    · exact one_le_visits _
    · rw [visits, visits]
      omega

/-- An observer that lets every box be split changes no visit. -/
theorem visits_thin_of_splits (h : ∀ kept axis, discards (.bisecting kept axis) = false)
    (e : Exploration) : (e.thin discards).visits = e.visits := by
  induction e with
  | gone => rfl
  | found kept =>
    rw [thin]
    split
    · rfl
    · rfl
  | split kept axis first second ih₁ ih₂ =>
    rw [thin, if_neg (by rw [h]; exact Bool.false_ne_true), visits, visits, ih₁, ih₂]

end Thin

end Exploration

/-! ## The exploration of an exhausted search -/

section Exploring

variable {cs : List Constraint} {c : Config} {b initial : Box} {t : Tree} {e : Exploration}

/-- The halves of a node in the order in which they are explored have the candidates and the
visits of the node below it. -/
theorem exists_exploration_of_halves {kept lower upper : Box} {axis : Nat} {tl tu : Tree}
    {el eu : Exploration} (hverdict : classify cs c b = .ok (.bisecting kept axis))
    (hhalves : halves c.order kept axis =
      .ok (firstHalf c.order lower upper, secondHalf c.order lower upper))
    (hl : ExplorationOf cs c lower el ∧ el.boxes = tl.boxes c.order ∧ el.visits = tl.size)
    (hu : ExplorationOf cs c upper eu ∧ eu.boxes = tu.boxes c.order ∧ eu.visits = tu.size) :
    ∃ e, ExplorationOf cs c b e ∧ e.boxes = (Tree.node tl tu).boxes c.order ∧
      e.visits = (Tree.node tl tu).size := by
  obtain ⟨hl, hlboxes, hlvisits⟩ := hl
  obtain ⟨hu, huboxes, huvisits⟩ := hu
  rw [Tree.boxes, Tree.size, ← hlboxes, ← huboxes, ← hlvisits, ← huvisits]
  cases horder : c.order with
  | lowerFirst =>
    have hparts : halves c.order kept axis = .ok (lower, upper) := by
      rw [hhalves, horder]
      rfl
    exact ⟨_, .split hverdict hparts hl hu, Exploration.boxes_split .., rfl⟩
  | upperFirst =>
    have hparts : halves c.order kept axis = .ok (upper, lower) := by
      rw [hhalves, horder]
      rfl
    refine ⟨_, .split hverdict hparts hu hl, Exploration.boxes_split .., ?_⟩
    rw [Exploration.visits]
    omega

/-- A finite tree without failures is explored, with its leaves as candidates and its nodes as
visits. -/
theorem exists_explorationOf (ht : TreeOf cs c.pruning c.eps b t)
    (hnone : t.failures c.order = []) :
    ∃ e, ExplorationOf cs c b e ∧ e.boxes = t.boxes c.order ∧ e.visits = t.size := by
  induction ht with
  | pruned h =>
    obtain ⟨k, hk⟩ := classify_of_branch_pruned h
    exact ⟨.gone, .gone hk, rfl, rfl⟩
  | leaf h => exact ⟨.found _, .found (classify_of_branch_leaf h), rfl, rfl⟩
  | failed => cases hnone
  | node h _ _ ihl ihu =>
    rw [Tree.failures, Tree.arrange_eq_nil_iff] at hnone
    obtain ⟨kept, axis, hverdict, hhalves⟩ := classify_of_branch_node h
    obtain ⟨el, hl⟩ := ihl hnone.1
    obtain ⟨eu, hu⟩ := ihu hnone.2
    exact exists_exploration_of_halves hverdict hhalves hl hu

/-- Under an observer that discards, a box on top of the stack comes to what is below it with
the candidates of its thinned exploration recorded and one visit counted for each of its nodes. -/
theorem reaches_of_explorationOf (hc : Unlimited c) (discards : Subject → Bool)
    (he : ExplorationOf cs c b e) :
    ∀ (s : State Unit) (rest : List Box), s.stack = b :: rest →
      ∃ s', Reaches cs c (Observer.discarding discards) s s' ∧ s'.stack = rest ∧
        s'.boxes.toList = s.boxes.toList ++ (e.thin discards).boxes ∧
        s'.branchings = s.branchings + (e.thin discards).visits := by
  induction he with
  | gone h =>
    intro s rest hstack
    have hmoves := Moves.pruned hstack (hc.limitReached _) h
      (reply_discarding_ne_stopEarly discards s _)
    exact ⟨_, .single (step_of_moves hmoves), rfl, (List.append_nil _).symm, rfl⟩
  | @found b kept h =>
    intro s rest hstack
    rw [Exploration.thin]
    cases hdiscards : discards (.accepted kept) with
    | true =>
      have hmoves := Moves.dropped hstack (hc.limitReached _) h (hc.refuses _)
        (reply_discarding_of_true hdiscards)
      exact ⟨_, .single (step_of_moves hmoves), rfl, (List.append_nil _).symm, rfl⟩
    | false =>
      have hmoves := Moves.recorded hstack (hc.limitReached _) h (hc.refuses _)
        (reply_discarding_of_false hdiscards)
      exact ⟨_, .single (step_of_moves hmoves), rfl, Array.toList_push, rfl⟩
  | @split b kept first second axis e₁ e₂ h hhalves _ _ ih₁ ih₂ =>
    intro s rest hstack
    rw [Exploration.thin]
    cases hdiscards : discards (.bisecting kept axis) with
    | true =>
      have hmoves := Moves.left hstack (hc.limitReached _) h
        (reply_discarding_of_true hdiscards)
      exact ⟨_, .single (step_of_moves hmoves), rfl, (List.append_nil _).symm, rfl⟩
    | false =>
      have hmoves := Moves.split hstack (hc.limitReached _) h
        (reply_discarding_of_false hdiscards) hhalves
      -- The first half is explored to its end, and leaves the second half on top of the stack.
      obtain ⟨s₁, hr₁, hstack₁, hboxes₁, hcount₁⟩ :=
        ih₁ ((s.hear _ rest b _).push first second) (second :: rest) rfl
      obtain ⟨s₂, hr₂, hstack₂, hboxes₂, hcount₂⟩ := ih₂ s₁ rest hstack₁
      refine ⟨s₂, (hr₁.trans hr₂).head (step_of_moves hmoves), hstack₂, ?_, ?_⟩
      · rw [hboxes₂, hboxes₁, List.append_assoc, if_neg Bool.false_ne_true,
          Exploration.boxes_split]
        rfl
      · have hfirst : s₁.branchings = s.branchings + 1 + (e₁.thin discards).visits := hcount₁
        rw [if_neg Bool.false_ne_true, Exploration.visits]
        omega

/-- The result of a search under an observer that discards is the thinned exploration. -/
theorem returnsUnder_discarding (hc : Unlimited c) (discards : Subject → Bool)
    (he : ExplorationOf cs c initial e) :
    ReturnsUnder cs c (Observer.discarding discards) () initial
      (.ok ⟨.exhausted, (e.thin discards).boxes, (e.thin discards).visits⟩) := by
  obtain ⟨s, hs, hstack, hboxes, hcount⟩ :=
    reaches_of_explorationOf hc discards he (.initial initial ()) [] rfl
  refine ⟨s.finish .exhausted, ⟨s, hs, step_of_stack_nil hstack⟩, ?_⟩
  have hlist : s.boxes.toList = (e.thin discards).boxes := hboxes
  have hvisits : s.branchings = (e.thin discards).visits := hcount.trans (Nat.zero_add _)
  rw [State.finish, hlist, hvisits]

end Exploring

/-- Answers to the events of pruned boxes make no difference to an observer that discards. -/
theorem answersAlike_discarding {discards discards' : Subject → Bool}
    (haccepted : ∀ box, discards (.accepted box) = discards' (.accepted box))
    (hbisecting : ∀ box axis, discards (.bisecting box axis) = discards' (.bisecting box axis)) :
    AnswersAlike (fun _ _ => True) (Observer.discarding discards)
      (Observer.discarding discards') where
  states _ _ _ _ := trivial
  answers s t event _ := by
    have hsame : discards event.subject = discards' event.subject →
        SameEffect event (Observer.discarding discards s event).2
          (Observer.discarding discards' t event).2 := by
      intro h
      apply SameEffect.of_eq
      rw [Observer.discarding, Observer.discarding, h]
    cases event with
    | pruned b k n =>
      -- Neither of the two stops the search, and no other answer matters here.
      have hnever : ∀ d : Subject → Bool,
          ¬ (Observer.discarding d () (.pruned b k n)).2 = some .stopEarly := fun d =>
        reply_discarding_ne_stopEarly d (.initial b ()) _
      exact iff_of_false (hnever discards) (hnever discards')
    | accepted b n => exact hsame (haccepted b)
    | bisecting b axis n => exact hsame (hbisecting b axis)

universe u

/-- Discarding removes exactly what is discarded. If nothing limits a search and without an
observer it returns a solution, it is exhausted, and so it is under every observer that discards
by kind, box and axis: the candidates left are, in the same order, those of which neither the
candidate nor a box that was split on the way to it is discarded, after at most as many visits,
and after as many if only accepted boxes are discarded. Answers to the events of pruned boxes
have no effect, and an observer that never answers has none at all; both hold under all limits.
Arbitrary constraints are allowed, and for those of a problem the result is that of `search`. -/
theorem discarding_removes_subtrees (cs : List Constraint) (c : Config) (initial : Box) :
    (Unlimited c → ∀ solution, Returns cs c initial (.ok solution) →
      solution.status = .exhausted ∧
      ∃ e, ExplorationOf cs c initial e ∧ solution.boxes = e.lineages.map Lineage.kept ∧
        ∀ discards : Subject → Bool, ∃ steered,
          ReturnsUnder cs c (Observer.discarding discards) () initial (.ok steered) ∧
          steered.status = .exhausted ∧
          steered.boxes = (e.lineages.filter (Lineage.survives discards)).map Lineage.kept ∧
          steered.branchings ≤ solution.branchings ∧
          ((∀ box axis, discards (.bisecting box axis) = false) →
            steered.branchings = solution.branchings)) ∧
      (∀ discards discards' : Subject → Bool,
        (∀ box, discards (.accepted box) = discards' (.accepted box)) →
        (∀ box axis, discards (.bisecting box axis) = discards' (.bisecting box axis)) →
        ∀ result, ReturnsUnder cs c (Observer.discarding discards) () initial result ↔
          ReturnsUnder cs c (Observer.discarding discards') () initial result) ∧
      ∀ (σ : Type u) (observe : Observer σ) (start : σ),
        ((∀ s event, (observe s event).2 = none) →
          ∀ result, ReturnsUnder cs c observe start initial result ↔
            Returns cs c initial result) ∧
        ∀ problem : Problem, problem.constraints = cs →
          ∀ result, ReturnsUnder cs c observe start initial result ↔
            (problem.search initial c observe start).result = result := by
  refine ⟨?_, ?_, ?_⟩
  · intro hc solution hsolution
    obtain ⟨t, ht, hnone, rfl⟩ := (returns_ok_iff hc solution).1 hsolution
    obtain ⟨e, he, hboxes, hvisits⟩ := exists_explorationOf ht hnone
    refine ⟨rfl, e, he, hboxes.symm, fun discards => ?_⟩
    refine ⟨_, returnsUnder_discarding hc discards he, rfl, ?_, ?_, fun hsplits => ?_⟩
    · rw [← Exploration.lineages_thin]
      rfl
    · rw [← hvisits]
      exact Exploration.visits_thin_le discards e
    · rw [← hvisits]
      exact Exploration.visits_thin_of_splits discards hsplits e
  · intro discards discards' haccepted hbisecting result
    exact returnsUnder_iff_of_answersAlike (answersAlike_discarding haccepted hbisecting) trivial
      result
  · intro σ observe start
    refine ⟨fun hsilent => returnsUnder_iff_of_silent hsilent start, ?_⟩
    rintro problem rfl
    exact returnsUnder_iff_search problem c observe start initial

/-- Candidates that begin at zero are not wanted. -/
def startsAtZero : Subject → Bool
  | .accepted b => decide ((b.components.head b.nonempty).lb = Binary64.zero)
  | _ => false

/-- Of the three quarters of `[-1, 1]` that are not left of zero, those that begin at zero can
be discarded without a change to the visits; counting events changes nothing. -/
theorem quarters_discarded : Unlimited halfConfig.unlimited ∧ ∃ solution steered,
    Returns [notLeftOfZero] halfConfig.unlimited Box.unitSegment (.ok solution) ∧
      solution.branchings = 7 ∧ solution.boxes.length = 3 ∧
      ReturnsUnder [notLeftOfZero] halfConfig.unlimited (Observer.discarding startsAtZero) ()
        Box.unitSegment (.ok steered) ∧
      steered.status = .exhausted ∧ steered.branchings = 7 ∧
      steered.boxes.Sublist solution.boxes ∧
      ReturnsUnder [notLeftOfZero] halfConfig.unlimited Stats.observer .zero Box.unitSegment
        (.ok solution) := by
  have hc : Unlimited halfConfig.unlimited := unlimited_unlimited halfConfig
  have hsteps : (steps [notLeftOfZero] halfConfig.unlimited Observer.silent 8
      (.initial Box.unitSegment ())).endsWith (fun _ solution =>
        decide (solution.branchings = 7 ∧ solution.boxes.length = 3)) = true := by
    decide +kernel
  obtain ⟨o, solution, hhalts, hresult, htest⟩ := exists_of_endsWith hsteps
  obtain ⟨hseven, hthree⟩ := of_decide_eq_true htest
  have hsolution : Returns [notLeftOfZero] halfConfig.unlimited Box.unitSegment (.ok solution) :=
    ⟨o, hhalts, hresult⟩
  obtain ⟨hdiscards, -, hobserves⟩ := discarding_removes_subtrees.{0} [notLeftOfZero]
    halfConfig.unlimited Box.unitSegment
  obtain ⟨-, e, -, hboxes, hsteered⟩ := hdiscards hc solution hsolution
  obtain ⟨steered, hreturns, hstatus, hleft, -, hvisits⟩ := hsteered startsAtZero
  refine ⟨hc, solution, steered, hsolution, hseven, hthree, hreturns, hstatus, ?_, ?_, ?_⟩
  · exact (hvisits fun _ _ => rfl).trans hseven
  · rw [hleft, hboxes]
    exact List.filter_sublist.map Lineage.kept
  · exact ((hobserves Stats Stats.observer .zero).1 (fun _ _ => rfl) _).2 hsolution

end Search

end Paving
