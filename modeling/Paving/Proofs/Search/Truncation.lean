import Paving.Proofs.Search.Accounting
import Paving.Proofs.Search.Limits
import Paving.Proofs.Search.Tree

/-!
# Searches that are cut short

A limit on the number of visits and an observer that asks to stop both cut a search short,
and change nothing else. What they cut short is the search with the same settings, without
an observer and without the limit, followed as far as one likes (`Makes`): it may fail
later, and under constraints that do not narrow boxes it may never end.

The search comes through a state with every number of visits on its way
(`exists_state_of_lt`). A limit ends it in that state (`halts_withLimit_of_lt`), or is never
noticed (`halts_withLimit_of_le`). An observer that has not answered so far is in a state
that agrees with it (`exists_shadow_of_reaches`), so when it asks to stop the search ends
with what was recorded before (`halts_of_stop`).
-/

set_option autoImplicit false

namespace Paving

namespace Config

/-- The settings with another limit on the number of visits. -/
def withLimit (c : Config) (limit : Option Nat) : Config :=
  { c with maxBranchings := limit }

theorem agrees_withLimit (c : Config) (limit limit' : Option Nat) :
    (c.withLimit limit).Agrees (c.withLimit limit') :=
  ⟨rfl, rfl, rfl⟩

/-- What the settings permit without a limit they permit with it, as far as it goes. -/
theorem Permits.withLimit {c : Config} {m n limit : Nat} (h : (c.withLimit none).Permits m n)
    (hn : n ≤ limit) : (c.withLimit (some limit)).Permits m n := by
  refine ⟨h.candidates_le, ?_⟩
  intro limit' hlimit
  cases hlimit
  exact hn

end Config

namespace Search

universe u

variable {σ : Type u}

/-! ## The visits of a search -/

section Visits

variable {cs : List Constraint} {c : Config} {observe : Observer σ} {s s' : State σ}
  {o : Outcome σ}

theorem branchings_of_moves (h : Moves cs c observe s s') :
    s'.branchings = s.branchings + 1 := by
  cases h with
  | pruned => rfl
  | recorded => rfl
  | dropped => rfl
  | split => rfl
  | left => rfl

/-- Every visit is noted. -/
theorem size_visits_of_reaches {initial : Box} {start : σ}
    (h : Reaches cs c observe (.initial initial start) s) : s.visits.size = s.branchings := by
  induction h with
  | refl => rfl
  | tail _ hstep ih =>
    have hmoves := moves_of_step hstep
    obtain ⟨-, -, v, -, -, hvisits⟩ := visits_of_moves hmoves
    rw [hvisits, Array.size_push, ih, branchings_of_moves hmoves]

/-- The last step of a search visits one more box, or none if there is none or the limit
forbids it. -/
theorem visits_of_ends (h : Ends cs c observe s o) :
    (o.visits = s.visits ∧ (s.stack = [] ∨ c.limitReached s.branchings = true)) ∨
      (s.stack ≠ [] ∧ ∃ v, o.visits = s.visits.push v) := by
  cases h with
  | exhausted hstack => exact .inl ⟨rfl, .inl hstack⟩
  | limit _ hlimit => exact .inl ⟨rfl, .inr hlimit⟩
  | unmeasured hstack | full hstack | stopped hstack | unsplit hstack =>
    rw [hstack]
    exact .inr ⟨List.cons_ne_nil _ _, _, rfl⟩

/-- The number of visits that is reported is that of the visits that were made. -/
theorem branchings_of_halts {initial : Box} {start : σ} {solution : Solution}
    (h : Halts cs c observe (.initial initial start) o) (hresult : o.result = .ok solution) :
    solution.branchings = o.visits.size := by
  obtain ⟨s, hs, hstep⟩ := h
  have hsize := size_visits_of_reaches hs
  cases ends_of_step hstep with
  | exhausted => cases hresult; exact hsize.symm
  | limit => cases hresult; exact hsize.symm
  | unmeasured => cases hresult
  | full | stopped =>
    cases hresult
    show s.branchings + 1 = (s.visits.push _).size
    rw [Array.size_push, hsize]
  | unsplit => cases hresult

/-- A run comes through a state with every number of visits between its ends. -/
theorem exists_reaches_of_le {n : Nat} (h : Reaches cs c observe s s') (hs : s.branchings ≤ n)
    (hn : n ≤ s'.branchings) :
    ∃ t, Reaches cs c observe s t ∧ Reaches cs c observe t s' ∧ t.branchings = n := by
  induction h with
  | refl => exact ⟨s, .refl, .refl, Nat.le_antisymm hs hn⟩
  | @tail t u hst hstep ih =>
    by_cases ht : n ≤ t.branchings
    · obtain ⟨v, hsv, hvt, hv⟩ := ih ht
      exact ⟨v, hsv, hvt.tail hstep, hv⟩
    · have hu := branchings_of_moves (moves_of_step hstep)
      exact ⟨u, hst.tail hstep, .refl, by omega⟩

end Visits

/-- The visits that a search without an observer makes, as far as it is followed: up to a
state on its way, or to its end. -/
inductive Makes (cs : List Constraint) (c : Config) (initial : Box) : Array Visit → Prop
  | underway {s : State Unit} (h : Reaches cs c Observer.silent (.initial initial ()) s) :
      Makes cs c initial s.visits
  | ended {o : Outcome Unit} (h : Halts cs c Observer.silent (.initial initial ()) o) :
      Makes cs c initial o.visits

section Makes

variable {cs : List Constraint} {c : Config} {initial : Box} {visits : Array Visit} {n : Nat}

/-- A search that makes more than `n` visits is at some time in a state with `n` visits, and
goes on from there with a step that belongs to the visits, or with its last one. -/
theorem exists_state_of_lt (h : Makes cs c initial visits) (hn : n < visits.size) :
    ∃ t, Reaches cs c Observer.silent (.initial initial ()) t ∧ t.branchings = n ∧
      ((∃ u, Moves cs c Observer.silent t u ∧ u.visits.toList <+: visits.toList) ∨
        ∃ o, Ends cs c Observer.silent t o ∧ o.visits = visits) := by
  cases h with
  | @underway s hs =>
    rw [size_visits_of_reaches hs] at hn
    obtain ⟨t, ht, hts, hcount⟩ := exists_reaches_of_le hs (Nat.zero_le n) (Nat.le_of_lt hn)
    refine ⟨t, ht, hcount, .inl ?_⟩
    rcases Relation.ReflTransGen.cases_head hts with rfl | ⟨u, hstep, hus⟩
    · exact absurd hcount (Nat.ne_of_gt hn)
    · exact ⟨u, moves_of_step hstep, (extends_of_reaches hus).visits⟩
  | @ended o ho =>
    obtain ⟨s, hs, hstep⟩ := ho
    have hends := ends_of_step hstep
    have hle : n ≤ s.branchings := by
      rw [← size_visits_of_reaches hs]
      rcases visits_of_ends hends with ⟨hsame, -⟩ | ⟨-, v, hpush⟩
      · rw [hsame] at hn
        exact Nat.le_of_lt hn
      · rw [hpush, Array.size_push] at hn
        exact Nat.le_of_lt_succ hn
    obtain ⟨t, ht, hts, hcount⟩ := exists_reaches_of_le hs (Nat.zero_le n) hle
    refine ⟨t, ht, hcount, ?_⟩
    -- The state is the last one, or a step leads on from it.
    rcases Relation.ReflTransGen.cases_head hts with rfl | ⟨u, hnext, hus⟩
    · exact .inr ⟨o, hends, rfl⟩
    · refine .inl ⟨u, moves_of_step hnext, (extends_of_reaches hus).visits.trans ?_⟩
      rcases visits_of_ends hends with ⟨hsame, -⟩ | ⟨-, v, hpush⟩
      · exact hsame ▸ List.prefix_rfl
      · rw [hpush, Array.toList_push]
        exact List.prefix_append _ _

/-- The state with `n` visits has made the first ones, and a box is left. -/
theorem exists_beginning_of_lt (h : Makes cs c initial visits) (hn : n < visits.size) :
    ∃ t, Reaches cs c Observer.silent (.initial initial ()) t ∧ t.branchings = n ∧
      t.stack ≠ [] ∧ t.visits.toList = visits.toList.take n := by
  obtain ⟨t, ht, hcount, hon⟩ := exists_state_of_lt h hn
  have hsize : t.visits.toList.length = n := (size_visits_of_reaches ht).trans hcount
  have hgoes : t.stack ≠ [] ∧ t.visits.toList <+: visits.toList := by
    rcases hon with ⟨u, hmoves, hbegins⟩ | ⟨o, hends, rfl⟩
    · obtain ⟨b, rest, -, hstack, -⟩ := visits_of_moves hmoves
      rw [hstack]
      exact ⟨List.cons_ne_nil b rest, (extends_of_moves hmoves).visits.trans hbegins⟩
    · rcases visits_of_ends hends with ⟨hsame, -⟩ | ⟨hstack, v, hpush⟩
      · rw [hsame] at hn
        exact absurd hn (Nat.not_lt.2 (Nat.le_of_eq hsize))
      · rw [hpush, Array.toList_push]
        exact ⟨hstack, List.prefix_append _ _⟩
  refine ⟨t, ht, hcount, hgoes.1, ?_⟩
  rw [← hsize]
  exact List.prefix_iff_eq_take.1 hgoes.2

end Makes

/-! ## A limit on the number of visits -/

section Limit

variable {cs : List Constraint} {c : Config} {initial : Box} {n : Nat}

/-- A limit that the search does not exceed makes no difference. -/
theorem halts_withLimit_of_le {o : Outcome Unit}
    (h : Halts cs (c.withLimit none) Observer.silent (.initial initial ()) o)
    (hn : o.visits.size ≤ n) :
    Halts cs (c.withLimit (some n)) Observer.silent (.initial initial ()) o := by
  obtain ⟨s, hs, hstep⟩ := h
  have hends := ends_of_step hstep
  have hsize := size_visits_of_reaches hs
  have hpermits := permits_of_reaches hs (c.withLimit none).permits_zero
  have hvisited : s.branchings ≤ n ∧ (s.stack ≠ [] → s.branchings + 1 ≤ n) := by
    rw [← hsize]
    rcases visits_of_ends hends with ⟨hsame, hempty | hlimit⟩ | ⟨-, v, hpush⟩
    · rw [hsame] at hn
      exact ⟨hn, fun hstack => absurd hempty hstack⟩
    · cases hlimit
    · rw [hpush, Array.size_push] at hn
      exact ⟨Nat.le_of_succ_le hn, fun _ => hn⟩
  refine ⟨s, reaches_of_permits (c.agrees_withLimit none (some n)) hs
    (hpermits.withLimit hvisited.1), step_of_ends ?_⟩
  apply ends_of_agrees (c.agrees_withLimit none (some n)) _ id hends
  intro hstack
  -- The limit is asked for only where a box is left, and then it permits the visit.
  show decide (n ≤ s.branchings) = false
  exact decide_eq_false (Nat.not_le.2 (hvisited.2 hstack))

/-- A limit that the search exceeds ends it in the state with as many visits. -/
theorem halts_withLimit_of_lt {visits : Array Visit}
    (h : Makes cs (c.withLimit none) initial visits) (hn : n < visits.size) :
    ∃ s o, Reaches cs (c.withLimit none) Observer.silent (.initial initial ()) s ∧
      s.visits.toList = visits.toList.take n ∧
      Halts cs (c.withLimit (some n)) Observer.silent (.initial initial ()) o ∧
      o.result = .ok ⟨.branchingLimit, s.boxes.toList, n⟩ ∧ o.visits = s.visits := by
  obtain ⟨s, hs, hcount, hstack, hvisits⟩ := exists_beginning_of_lt h hn
  obtain ⟨b, rest, hnext⟩ := List.exists_cons_of_ne_nil hstack
  have hpermits := permits_of_reaches hs (c.withLimit none).permits_zero
  have hlimited := reaches_of_permits (c.agrees_withLimit none (some n)) hs
    (hpermits.withLimit (Nat.le_of_eq hcount))
  have hreached : (c.withLimit (some n)).limitReached s.branchings = true :=
    decide_eq_true (Nat.le_of_eq hcount.symm)
  refine ⟨s, _, hs, hvisits, ⟨s, hlimited, step_of_limit hnext hreached⟩, ?_, rfl⟩
  rw [← hcount]
  rfl

end Limit

/-! ## An observer that asks to stop -/

/-- In this state the search announces the event next, whoever hears it. -/
def Announces (cs : List Constraint) (c : Config) (s : State σ) (event : Event) : Prop :=
  ∃ b rest, s.stack = b :: rest ∧ c.limitReached s.branchings = false ∧
    ((∃ k, classify cs c b = .ok (.pruned k) ∧ event = .pruned b k (s.branchings + 1)) ∨
      (∃ kept, classify cs c b = .ok (.accepted kept) ∧ c.refuses s.boxes.size = false ∧
        event = .accepted kept (s.branchings + 1)) ∨
      ∃ kept axis, classify cs c b = .ok (.bisecting kept axis) ∧
        event = .bisecting kept axis (s.branchings + 1))

section Announces

variable {cs : List Constraint} {c : Config} {observe : Observer σ} {s s' : State σ}
  {o : Outcome σ} {event : Event}

theorem Announces.number_eq (h : Announces cs c s event) : event.number = s.branchings + 1 := by
  obtain ⟨b, rest, -, -, ⟨k, -, rfl⟩ | ⟨kept, -, -, rfl⟩ | ⟨kept, axis, -, rfl⟩⟩ := h
  · rfl
  · rfl
  · rfl

/-- A step that goes on announces one event. -/
theorem announces_of_moves (h : Moves cs c observe s s') :
    ∃ event, Announces cs c s event ∧ eventsOf s'.visits = eventsOf s.visits ++ [event] := by
  cases h with
  | pruned hstack hlimit hverdict =>
    exact ⟨_, ⟨_, _, hstack, hlimit, .inl ⟨_, hverdict, rfl⟩⟩, eventsOf_push_event _ _ _ _ _⟩
  | recorded hstack hlimit hverdict hroom | dropped hstack hlimit hverdict hroom =>
    exact ⟨_, ⟨_, _, hstack, hlimit, .inr (.inl ⟨_, hverdict, hroom, rfl⟩)⟩,
      eventsOf_push_event _ _ _ _ _⟩
  | split hstack hlimit hverdict | left hstack hlimit hverdict =>
    exact ⟨_, ⟨_, _, hstack, hlimit, .inr (.inr ⟨_, _, hverdict, rfl⟩)⟩,
      eventsOf_push_event _ _ _ _ _⟩

/-- The last step of a search announces one event or none. -/
theorem announces_of_ends (h : Ends cs c observe s o) :
    eventsOf o.visits = eventsOf s.visits ∨
      ∃ event, Announces cs c s event ∧ eventsOf o.visits = eventsOf s.visits ++ [event] := by
  cases h with
  | exhausted => exact .inl rfl
  | limit => exact .inl rfl
  | unmeasured => exact .inl (eventsOf_push_silent _ _ _ _)
  | full => exact .inl (eventsOf_push_silent _ _ _ _)
  | stopped hstack hlimit hevent =>
    exact .inr ⟨_, ⟨_, _, hstack, hlimit, hevent⟩, eventsOf_push_event _ _ _ _ _⟩
  | unsplit hstack hlimit hverdict =>
    exact .inr ⟨_, ⟨_, _, hstack, hlimit, .inr (.inr ⟨_, _, hverdict, rfl⟩)⟩,
      eventsOf_push_event _ _ _ _ _⟩

/-- A search under way has announced one event for each visit. -/
theorem length_eventsOf {initial : Box} {start : σ}
    (h : Reaches cs c observe (.initial initial start) s) :
    (eventsOf s.visits).length = s.branchings := by
  have hbalanced := balanced_of_reaches h (balanced_initial initial observe start)
  rw [eventsOf, List.length_map]
  exact length_of_range hbalanced.numbers

end Announces

/-- Before a search announces an event it is in a state where the events before it have been
announced and this one is next. -/
theorem exists_state_before {cs : List Constraint} {c : Config} {initial : Box}
    {visits : Array Visit} {k : Nat} {event : Event} (h : Makes cs c initial visits)
    (hevent : (eventsOf visits)[k]? = some event) :
    ∃ s, Reaches cs c Observer.silent (.initial initial ()) s ∧
      eventsOf s.visits = (eventsOf visits).take k ∧ Announces cs c s event := by
  have hk : k < (eventsOf visits).length := (List.getElem?_eq_some_iff.1 hevent).1
  have hvisits : (eventsOf visits).length ≤ visits.size := by
    rw [eventsOf, List.length_map]
    exact List.length_filterMap_le _ _
  obtain ⟨s, hs, hcount, hon⟩ := exists_state_of_lt h (Nat.lt_of_lt_of_le hk hvisits)
  have hlength : (eventsOf s.visits).length = k := (length_eventsOf hs).trans hcount
  -- Whatever the next step is, its event is the next one in the list.
  have hnext : ∃ next, Announces cs c s next ∧
      eventsOf s.visits ++ [next] <+: eventsOf visits := by
    rcases hon with ⟨u, hmoves, hbegins⟩ | ⟨o, hends, rfl⟩
    · obtain ⟨next, hannounces, hevents⟩ := announces_of_moves hmoves
      refine ⟨next, hannounces, ?_⟩
      rw [← hevents]
      exact (hbegins.filterMap _).map _
    · rcases announces_of_ends hends with hsame | ⟨next, hannounces, hevents⟩
      · rw [hsame, hlength] at hk
        exact absurd hk (Nat.lt_irrefl k)
      · exact ⟨next, hannounces, hevents ▸ List.prefix_rfl⟩
  obtain ⟨next, hannounces, later, hlater⟩ := hnext
  rw [← hlater, ← hlength] at hevent
  rw [← hlater, ← hlength]
  simp only [List.append_assoc, List.cons_append, List.nil_append,
    List.getElem?_append_right (Nat.le_refl _), Nat.sub_self, List.getElem?_cons_zero,
    Option.some.injEq] at hevent
  subst hevent
  refine ⟨s, hs, ?_, hannounces⟩
  rw [List.append_assoc, List.take_left]

/-! ## What an observer that has not answered changes -/

/-- A state of a search with an observer that agrees with one without: the same boxes to be
visited, the same candidates, the same number of visits and the same events, all of which
the observer has heard. -/
structure Shadows (observe : Observer σ) (start : σ) (s : State Unit) (t : State σ) : Prop where
  stack : t.stack = s.stack
  boxes : t.boxes = s.boxes
  branchings : t.branchings = s.branchings
  events : eventsOf t.visits = eventsOf s.visits
  observer : t.observer = (hearAll observe start (eventsOf s.visits)).1

section Shadows

variable {cs : List Constraint} {c : Config} {observe : Observer σ} {start : σ}
  {s s' : State Unit} {t : State σ} {initial : Box} {event : Event}

theorem shadows_initial (initial : Box) (observe : Observer σ) (start : σ) :
    Shadows observe start (.initial initial ()) (.initial initial start) :=
  ⟨rfl, rfl, rfl, rfl, rfl⟩

theorem Shadows.announces (h : Shadows observe start s t) (hs : Announces cs c s event) :
    Announces cs c t event := by
  rw [Announces, h.stack, h.boxes, h.branchings]
  exact hs

/-- The answer to the next event is the next answer. -/
theorem Shadows.reply (h : Shadows observe start s t) (event : Event) :
    (hearAll observe start (eventsOf s.visits ++ [event])).2 =
      (hearAll observe start (eventsOf s.visits)).2 ++ [t.reply observe event] := by
  rw [hearAll_concat, State.reply, h.observer]

/-- Both searches hear of the next box. -/
theorem Shadows.hear (h : Shadows observe start s t) (rest : List Box) (b : Box)
    (event : Event) :
    Shadows observe start (s.hear Observer.silent rest b event) (t.hear observe rest b event) := by
  refine ⟨rfl, h.boxes, congrArg (· + 1) h.branchings, ?_, ?_⟩
  · rw [visits_hear, visits_hear, eventsOf_push_event, eventsOf_push_event, h.events]
  · rw [visits_hear, eventsOf_push_event, hearAll_concat, ← h.observer]
    rfl

theorem Shadows.record (h : Shadows observe start s t) (b : Box) :
    Shadows observe start (s.record b) (t.record b) :=
  ⟨h.stack, congrArg (·.push b) h.boxes, h.branchings, h.events, h.observer⟩

theorem Shadows.push (h : Shadows observe start s t) (b₁ b₂ : Box) :
    Shadows observe start (s.push b₁ b₂) (t.push b₁ b₂) :=
  ⟨congrArg (b₁ :: b₂ :: ·) h.stack, h.boxes, h.branchings, h.events, h.observer⟩

/-- Without an answer the observed search takes the same step. -/
theorem exists_shadow_of_moves (hs : Shadows observe start s t)
    (h : Moves cs c Observer.silent s s')
    (hquiet : ∀ answer ∈ (hearAll observe start (eventsOf s'.visits)).2, answer = none) :
    ∃ t', Moves cs c observe t t' ∧ Shadows observe start s' t' := by
  have hreply : ∀ event, eventsOf s'.visits = eventsOf s.visits ++ [event] →
      t.reply observe event = none := by
    intro event hevents
    rw [hevents, hs.reply] at hquiet
    exact hquiet _ (List.mem_append_right _ List.mem_cons_self)
  have hcount := hs.branchings
  cases h with
  | @pruned b rest k hstack hlimit hverdict =>
    have hnone := hreply _ (eventsOf_push_event _ _ _ _ _)
    rw [← hcount] at hlimit hnone
    refine ⟨_, .pruned (hs.stack.trans hstack) hlimit hverdict (by rw [hnone]; nofun), ?_⟩
    rw [hcount]
    exact hs.hear rest b _
  | @recorded b kept rest hstack hlimit hverdict hroom =>
    have hnone := hreply _ (eventsOf_push_event _ _ _ _ _)
    rw [← hcount] at hlimit hnone
    rw [← hs.boxes] at hroom
    refine ⟨_, .recorded (hs.stack.trans hstack) hlimit hverdict hroom hnone, ?_⟩
    rw [hcount]
    exact (hs.hear rest b _).record kept
  | dropped _ _ _ _ hdropped => cases hdropped
  | @split b kept first second rest axis hstack hlimit hverdict _ hhalves =>
    have hnone := hreply _ (eventsOf_push_event _ _ _ _ _)
    rw [← hcount] at hlimit hnone
    refine ⟨_, .split (hs.stack.trans hstack) hlimit hverdict hnone hhalves, ?_⟩
    rw [hcount]
    exact (hs.hear rest b _).push first second
  | left _ _ _ hleft => cases hleft

/-- Without an answer the observed search makes the same run. -/
theorem exists_shadow_of_reaches (h : Reaches cs c Observer.silent (.initial initial ()) s)
    (hquiet : ∀ answer ∈ (hearAll observe start (eventsOf s.visits)).2, answer = none) :
    ∃ t, Reaches cs c observe (.initial initial start) t ∧ Shadows observe start s t := by
  induction h with
  | refl => exact ⟨_, .refl, shadows_initial initial observe start⟩
  | @tail s s' _ hstep ih =>
    have hmoves := moves_of_step hstep
    obtain ⟨event, -, hevents⟩ := announces_of_moves hmoves
    have hbefore : ∀ answer ∈ (hearAll observe start (eventsOf s.visits)).2, answer = none := by
      intro answer hanswer
      apply hquiet
      rw [hevents, hearAll_concat]
      exact List.mem_append_left _ hanswer
    obtain ⟨t, ht, hs⟩ := ih hbefore
    obtain ⟨t', hmoves', hs'⟩ := exists_shadow_of_moves hs hmoves hquiet
    exact ⟨t', ht.tail (step_of_moves hmoves'), hs'⟩

/-- An observer that asks to stop ends the search with what was recorded before. -/
theorem halts_of_stop {visits : Array Visit} {k : Nat} (h : Makes cs c initial visits)
    (hevent : (eventsOf visits)[k]? = some event)
    (hanswers : (hearAll observe start ((eventsOf visits).take (k + 1))).2 =
      List.replicate k none ++ [some .stopEarly]) :
    ∃ s o, Reaches cs c Observer.silent (.initial initial ()) s ∧
      eventsOf s.visits = (eventsOf visits).take k ∧
      Halts cs c observe (.initial initial start) o ∧
      o.result = .ok ⟨.stoppedByObserver, s.boxes.toList, event.number⟩ ∧
      eventsOf o.visits = (eventsOf visits).take (k + 1) := by
  obtain ⟨s, hs, hbefore, hannounces⟩ := exists_state_before h hevent
  have hevents : (eventsOf visits).take (k + 1) = eventsOf s.visits ++ [event] := by
    rw [List.take_add_one, hevent, hbefore]
    rfl
  rw [hevents, hearAll_concat] at hanswers
  obtain ⟨hquiet, hstop⟩ := List.append_inj' hanswers rfl
  have hnone : ∀ answer ∈ (hearAll observe start (eventsOf s.visits)).2, answer = none := by
    rw [hquiet]
    intro answer hanswer
    exact List.eq_of_mem_replicate hanswer
  obtain ⟨t, ht, hshadow⟩ := exists_shadow_of_reaches hs hnone
  obtain ⟨b, rest, hstack, hlimit, hkind⟩ := hshadow.announces hannounces
  have hreply : t.reply observe event = some .stopEarly := by
    rw [State.reply, hshadow.observer]
    exact List.head_eq_of_cons_eq hstop
  refine ⟨s, _, hs, hbefore, ⟨t, ht, step_of_ends (.stopped hstack hlimit hkind hreply)⟩, ?_, ?_⟩
  · rw [hannounces.number_eq, ← hshadow.boxes, ← hshadow.branchings]
    rfl
  · rw [hevents, ← hshadow.events]
    exact eventsOf_push_event _ _ _ _ _

end Shadows

/-! ## Results -/

/-- What cuts a search short changes nothing else, for arbitrary constraints. Let the search
without an observer and without a limit be followed to its end, or as far as one likes. If
it ends after at most `n` visits, it ends in the same way under a limit of `n`; if it makes
more than `n` visits, then under that limit it makes the first `n` of them and ends with what
it had recorded after them. Whatever the limit, an observer that does not answer the first
`k` events and asks to stop at the next one ends the search at that event, with what was
recorded before it. For problems all of this is about the outcomes that are computed. -/
theorem truncated_search_keeps_beginning (cs : List Constraint) (c : Config) (initial : Box) :
    (∀ (n : Nat) (o : Outcome Unit),
        Halts cs (c.withLimit none) Observer.silent (.initial initial ()) o →
          (∀ solution, o.result = .ok solution → solution.branchings = o.visits.size) ∧
            (o.visits.size ≤ n →
              Halts cs (c.withLimit (some n)) Observer.silent (.initial initial ()) o)) ∧
      (∀ (n : Nat) (visits : Array Visit), Makes cs (c.withLimit none) initial visits →
        n < visits.size →
          ∃ s o, Reaches cs (c.withLimit none) Observer.silent (.initial initial ()) s ∧
            s.visits.toList = visits.toList.take n ∧
            Halts cs (c.withLimit (some n)) Observer.silent (.initial initial ()) o ∧
            o.result = .ok ⟨.branchingLimit, s.boxes.toList, n⟩ ∧ o.visits = s.visits) ∧
      (∀ {σ : Type u} (observe : Observer σ) (start : σ) (k : Nat) (visits : Array Visit)
        (event : Event), Makes cs c initial visits → (eventsOf visits)[k]? = some event →
          (hearAll observe start ((eventsOf visits).take (k + 1))).2 =
            List.replicate k none ++ [some .stopEarly] →
          ∃ s o, Reaches cs c Observer.silent (.initial initial ()) s ∧
            eventsOf s.visits = (eventsOf visits).take k ∧
            Halts cs c observe (.initial initial start) o ∧
            o.result = .ok ⟨.stoppedByObserver, s.boxes.toList, event.number⟩ ∧
            eventsOf o.visits = (eventsOf visits).take (k + 1)) ∧
      ∀ {σ : Type u} (problem : Problem) (c' : Config) (observe : Observer σ) (start : σ),
        problem.constraints = cs →
          Halts cs c' observe (.initial initial start)
            (problem.search initial c' observe start) := by
  refine ⟨?_, ?_, ?_, ?_⟩
  · intro n o ho
    exact ⟨fun solution => branchings_of_halts ho, halts_withLimit_of_le ho⟩
  · intro n visits hvisits hn
    exact halts_withLimit_of_lt hvisits hn
  · intro σ observe start k visits event hvisits hevent hanswers
    exact halts_of_stop hvisits hevent hanswers
  · rintro σ problem c' observe start rfl
    exact halts_run problem c' observe (.initial initial start)

/-- The observer that counts the events and asks to stop after a number of them. -/
def stopAfter (k : Nat) : Observer Nat :=
  fun heard _ => (heard + 1, if heard = k then some .stopEarly else none)

/-- The search for quarters of `[-1, 1]` that are not left of zero makes seven visits. A limit
of seven makes no difference to it; a limit of four ends it after four visits; and an observer
that asks to stop after five events ends it at the sixth visit. -/
theorem quarters_truncated : ∃ o : Outcome Unit,
    Halts [notLeftOfZero] (halfConfig.withLimit none) Observer.silent
        (.initial Box.unitSegment ()) o ∧ o.visits.size = 7 ∧
      Halts [notLeftOfZero] (halfConfig.withLimit (some 7)) Observer.silent
        (.initial Box.unitSegment ()) o ∧
      (∃ boxes, Returns [notLeftOfZero] (halfConfig.withLimit (some 4)) Box.unitSegment
        (.ok ⟨.branchingLimit, boxes, 4⟩)) ∧
      ∃ o' boxes, Halts [notLeftOfZero] halfConfig (stopAfter 5)
        (.initial Box.unitSegment 0) o' ∧ o'.result = .ok ⟨.stoppedByObserver, boxes, 6⟩ := by
  have hsteps : (steps [notLeftOfZero] (halfConfig.withLimit none) Observer.silent 8
      (.initial Box.unitSegment ())).endsWith (fun o _ =>
        decide (o.visits.size = 7 ∧ (eventsOf o.visits)[5]?.map Event.number = some 6 ∧
          (hearAll (stopAfter 5) 0 ((eventsOf o.visits).take 6)).2 =
            List.replicate 5 none ++ [some .stopEarly])) = true := by
    decide +kernel
  obtain ⟨o, solution, hhalts, -, htest⟩ := exists_of_endsWith hsteps
  obtain ⟨hseven, hsixth, hanswers⟩ := of_decide_eq_true htest
  obtain ⟨event, hevent, hnumber⟩ := Option.map_eq_some_iff.1 hsixth
  obtain ⟨hlong, hshort, hstop, -⟩ :=
    truncated_search_keeps_beginning.{0} [notLeftOfZero] halfConfig Box.unitSegment
  refine ⟨o, hhalts, hseven, (hlong 7 o hhalts).2 (Nat.le_of_eq hseven), ?_, ?_⟩
  · obtain ⟨s, o', -, -, ho', hresult, -⟩ :=
      hshort 4 o.visits (.ended hhalts) (by rw [hseven]; decide)
    exact ⟨_, o', ho', hresult⟩
  · obtain ⟨s, o', -, -, ho', hresult, -⟩ :=
      hstop (stopAfter 5) 0 5 o.visits event (.ended hhalts) hevent hanswers
    rw [hnumber] at hresult
    exact ⟨o', _, ho', hresult⟩

end Search

end Paving
