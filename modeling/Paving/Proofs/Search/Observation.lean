import Paving.Proofs.Search.Tree

/-!
# Observers that answer alike

The result of a search depends on its observer through the answers alone, and not on all
of them: a box that is ruled out is dropped anyway, so the answer to its event matters
only if it is to stop. `SameEffect` says when two answers to an event do the same, and
`AnswersAlike` that two observers, whatever their states are, go on giving such answers.
Their searches then keep the same boxes on the stack, record the same candidates and
count the same visits at every step (`exists_alongside_of_moves`), end at the same step
(`exists_ends_of_alongside`) and return the same result (`returnsUnder_of_answersAlike`).

An observer that never answers is one case (`returnsUnder_iff_of_silent`): its search
returns what the search without an observer returns.
-/

set_option autoImplicit false

namespace Paving

namespace Search

universe u v

variable {σ : Type u} {τ : Type v}

/-! ## Results under an observer -/

/-- A search with an observer returns a result. -/
def ReturnsUnder (cs : List Constraint) (c : Config) (observe : Observer σ) (start : σ)
    (initial : Box) (result : Except SearchError Solution) : Prop :=
  ∃ o, Halts cs c observe (.initial initial start) o ∧ o.result = result

theorem returnsUnder_iff_search (problem : Problem) (c : Config) (observe : Observer σ)
    (start : σ) (initial : Box) (result : Except SearchError Solution) :
    ReturnsUnder problem.constraints c observe start initial result ↔
      (problem.search initial c observe start).result = result := by
  constructor
  · rintro ⟨o, ho, rfl⟩
    rw [halts_iff_run] at ho
    rw [← ho]
    rfl
  · intro h
    exact ⟨problem.search initial c observe start, halts_run problem c observe _, h⟩

/-! ## Answers with the same effect -/

/-- Two answers to an event do the same. A box that is ruled out is dropped whether the
observer discards it or not. -/
def SameEffect : Event → Option Action → Option Action → Prop
  | .pruned _ _ _, answer, answer' => answer = some .stopEarly ↔ answer' = some .stopEarly
  | .accepted _ _, answer, answer' => answer = answer'
  | .bisecting _ _ _, answer, answer' => answer = answer'

theorem SameEffect.of_eq {event : Event} {answer answer' : Option Action}
    (h : answer = answer') : SameEffect event answer answer' := by
  subst h
  cases event with
  | pruned => exact Iff.rfl
  | accepted => rfl
  | bisecting => rfl

theorem SameEffect.symm {event : Event} {answer answer' : Option Action}
    (h : SameEffect event answer answer') : SameEffect event answer' answer := by
  cases event with
  | pruned => exact Iff.symm h
  | accepted => exact Eq.symm h
  | bisecting => exact Eq.symm h

theorem SameEffect.stopEarly_iff {event : Event} {answer answer' : Option Action}
    (h : SameEffect event answer answer') :
    answer = some .stopEarly ↔ answer' = some .stopEarly := by
  cases event with
  | pruned => exact h
  | accepted =>
    have heq : answer = answer' := h
    rw [heq]
  | bisecting =>
    have heq : answer = answer' := h
    rw [heq]

/-- Two observers whose states correspond keep corresponding states and give answers with
the same effect. -/
structure AnswersAlike (corresponds : σ → τ → Prop) (observe : Observer σ)
    (observe' : Observer τ) : Prop where
  states : ∀ s t event, corresponds s t → corresponds (observe s event).1 (observe' t event).1
  answers : ∀ s t event, corresponds s t →
    SameEffect event (observe s event).2 (observe' t event).2

theorem AnswersAlike.symm {corresponds : σ → τ → Prop} {observe : Observer σ}
    {observe' : Observer τ} (h : AnswersAlike corresponds observe observe') :
    AnswersAlike (fun t s => corresponds s t) observe' observe :=
  ⟨fun t s event hst => h.states s t event hst, fun t s event hst => (h.answers s t event hst).symm⟩

/-! ## Two searches side by side -/

/-- Two states with the same boxes to be visited, the same candidates and the same number
of visits, whose observers are in corresponding states. -/
structure Alongside (corresponds : σ → τ → Prop) (s : State σ) (t : State τ) : Prop where
  stack : t.stack = s.stack
  boxes : t.boxes = s.boxes
  branchings : t.branchings = s.branchings
  observers : corresponds s.observer t.observer

section Alongside

variable {cs : List Constraint} {c : Config} {corresponds : σ → τ → Prop} {observe : Observer σ}
  {observe' : Observer τ} {s s' : State σ} {t : State τ} {o : Outcome σ} {initial : Box}

theorem Alongside.reply (halike : AnswersAlike corresponds observe observe')
    (h : Alongside corresponds s t) (event : Event) :
    SameEffect event (s.reply observe event) (t.reply observe' event) :=
  halike.answers _ _ event h.observers

theorem Alongside.hear (halike : AnswersAlike corresponds observe observe')
    (h : Alongside corresponds s t) (rest : List Box) (b : Box) (event : Event) :
    Alongside corresponds (s.hear observe rest b event) (t.hear observe' rest b event) :=
  ⟨rfl, h.boxes, congrArg (· + 1) h.branchings, halike.states _ _ event h.observers⟩

theorem Alongside.record (h : Alongside corresponds s t) (b : Box) :
    Alongside corresponds (s.record b) (t.record b) :=
  ⟨h.stack, congrArg (·.push b) h.boxes, h.branchings, h.observers⟩

theorem Alongside.push (h : Alongside corresponds s t) (b₁ b₂ : Box) :
    Alongside corresponds (s.push b₁ b₂) (t.push b₁ b₂) :=
  ⟨congrArg (b₁ :: b₂ :: ·) h.stack, h.boxes, h.branchings, h.observers⟩

/-- A step of one search is one of the other. -/
theorem exists_alongside_of_moves (halike : AnswersAlike corresponds observe observe')
    (hs : Alongside corresponds s t) (h : Moves cs c observe s s') :
    ∃ t', Moves cs c observe' t t' ∧ Alongside corresponds s' t' := by
  have hcount := hs.branchings
  cases h with
  | @pruned b rest k hstack hlimit hverdict hreply =>
    rw [← hcount] at hlimit hreply ⊢
    refine ⟨_, .pruned (hs.stack.trans hstack) hlimit hverdict ?_, hs.hear halike rest b _⟩
    rwa [Ne, ← (hs.reply halike _).stopEarly_iff]
  | @recorded b kept rest hstack hlimit hverdict hroom hreply =>
    rw [← hcount] at hlimit hreply ⊢
    rw [← hs.boxes] at hroom
    have hsame : s.reply observe _ = t.reply observe' _ :=
      hs.reply halike (.accepted kept (t.branchings + 1))
    exact ⟨_, .recorded (hs.stack.trans hstack) hlimit hverdict hroom (hsame.symm.trans hreply),
      (hs.hear halike rest b _).record kept⟩
  | @dropped b kept rest hstack hlimit hverdict hroom hreply =>
    rw [← hcount] at hlimit hreply ⊢
    rw [← hs.boxes] at hroom
    have hsame : s.reply observe _ = t.reply observe' _ :=
      hs.reply halike (.accepted kept (t.branchings + 1))
    exact ⟨_, .dropped (hs.stack.trans hstack) hlimit hverdict hroom (hsame.symm.trans hreply),
      hs.hear halike rest b _⟩
  | @split b kept first second rest axis hstack hlimit hverdict hreply hhalves =>
    rw [← hcount] at hlimit hreply ⊢
    have hsame : s.reply observe _ = t.reply observe' _ :=
      hs.reply halike (.bisecting kept axis (t.branchings + 1))
    exact ⟨_, .split (hs.stack.trans hstack) hlimit hverdict (hsame.symm.trans hreply) hhalves,
      (hs.hear halike rest b _).push first second⟩
  | @left b kept rest axis hstack hlimit hverdict hreply =>
    rw [← hcount] at hlimit hreply ⊢
    have hsame : s.reply observe _ = t.reply observe' _ :=
      hs.reply halike (.bisecting kept axis (t.branchings + 1))
    exact ⟨_, .left (hs.stack.trans hstack) hlimit hverdict (hsame.symm.trans hreply),
      hs.hear halike rest b _⟩

/-- What ends one search ends the other, with the same result. -/
theorem exists_ends_of_alongside (halike : AnswersAlike corresponds observe observe')
    (hs : Alongside corresponds s t) (h : Ends cs c observe s o) :
    ∃ o', Ends cs c observe' t o' ∧ o'.result = o.result := by
  have hcount := hs.branchings
  have hfinish : ∀ status, (⟨status, t.boxes.toList, t.branchings⟩ : Solution) =
      ⟨status, s.boxes.toList, s.branchings⟩ := by
    intro status
    rw [hs.boxes, hcount]
  have htaken : ∀ status, (⟨status, t.boxes.toList, t.branchings + 1⟩ : Solution) =
      ⟨status, s.boxes.toList, s.branchings + 1⟩ := by
    intro status
    rw [hs.boxes, hcount]
  cases h with
  | exhausted hstack =>
    exact ⟨_, .exhausted (hs.stack.trans hstack), congrArg Except.ok (hfinish _)⟩
  | limit hstack hlimit =>
    rw [← hcount] at hlimit
    exact ⟨_, .limit (hs.stack.trans hstack) hlimit, congrArg Except.ok (hfinish _)⟩
  | unmeasured hstack hlimit hverdict =>
    rw [← hcount] at hlimit
    exact ⟨_, .unmeasured (hs.stack.trans hstack) hlimit hverdict, rfl⟩
  | full hstack hlimit hverdict hroom =>
    rw [← hcount] at hlimit
    rw [← hs.boxes] at hroom
    exact ⟨_, .full (hs.stack.trans hstack) hlimit hverdict hroom,
      congrArg Except.ok (htaken _)⟩
  | @stopped b rest event hstack hlimit hevent hreply =>
    rw [← hcount] at hlimit
    rw [← hcount, ← hs.boxes] at hevent
    exact ⟨_, .stopped (hs.stack.trans hstack) hlimit hevent
      ((hs.reply halike event).stopEarly_iff.1 hreply), congrArg Except.ok (htaken _)⟩
  | @unsplit b kept rest axis e hstack hlimit hverdict hreply hhalves =>
    rw [← hcount] at hlimit hreply
    have hsame : s.reply observe _ = t.reply observe' _ :=
      hs.reply halike (.bisecting kept axis (t.branchings + 1))
    exact ⟨_, .unsplit (hs.stack.trans hstack) hlimit hverdict (hsame.symm.trans hreply) hhalves,
      rfl⟩

/-- The two searches stay side by side. -/
theorem exists_alongside_of_reaches (halike : AnswersAlike corresponds observe observe')
    (hs : Alongside corresponds s t) (h : Reaches cs c observe s s') :
    ∃ t', Reaches cs c observe' t t' ∧ Alongside corresponds s' t' := by
  induction h with
  | refl => exact ⟨t, .refl, hs⟩
  | tail _ hstep ih =>
    obtain ⟨t₁, ht₁, hs₁⟩ := ih
    obtain ⟨t₂, hmoves, hs₂⟩ := exists_alongside_of_moves halike hs₁ (moves_of_step hstep)
    exact ⟨t₂, ht₁.tail (step_of_moves hmoves), hs₂⟩

/-- Observers that answer alike lead to the same result. -/
theorem returnsUnder_of_answersAlike (halike : AnswersAlike corresponds observe observe')
    {start : σ} {start' : τ} (hstart : corresponds start start')
    {result : Except SearchError Solution} (h : ReturnsUnder cs c observe start initial result) :
    ReturnsUnder cs c observe' start' initial result := by
  obtain ⟨o, ⟨s, hs, hstep⟩, rfl⟩ := h
  have hinitial : Alongside corresponds (.initial initial start) (.initial initial start') :=
    ⟨rfl, rfl, rfl, hstart⟩
  obtain ⟨t, ht, halong⟩ := exists_alongside_of_reaches halike hinitial hs
  obtain ⟨o', hends, hresult⟩ := exists_ends_of_alongside halike halong (ends_of_step hstep)
  exact ⟨o', ⟨t, ht, step_of_ends hends⟩, hresult⟩

theorem returnsUnder_iff_of_answersAlike (halike : AnswersAlike corresponds observe observe')
    {start : σ} {start' : τ} (hstart : corresponds start start')
    (result : Except SearchError Solution) :
    ReturnsUnder cs c observe start initial result ↔
      ReturnsUnder cs c observe' start' initial result :=
  ⟨returnsUnder_of_answersAlike halike hstart, returnsUnder_of_answersAlike halike.symm hstart⟩

/-- An observer that never answers changes nothing about the result. -/
theorem returnsUnder_iff_of_silent (hsilent : ∀ s event, (observe s event).2 = none) (start : σ)
    (result : Except SearchError Solution) :
    ReturnsUnder cs c observe start initial result ↔ Returns cs c initial result := by
  have halike : AnswersAlike (fun _ _ => True) observe Observer.silent :=
    ⟨fun _ _ _ _ => trivial, fun s _ event _ => .of_eq (hsilent s event)⟩
  exact returnsUnder_iff_of_answersAlike halike trivial result

end Alongside

end Search

end Paving
