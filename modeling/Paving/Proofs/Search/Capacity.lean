import Paving.Proofs.Search.Coverage
import Paving.Proofs.Search.Limits
import Paving.Proofs.Search.Termination
import Paving.Proofs.Search.Tree

/-!
# Searches with room for some candidates

A search that stops when its list of candidates is full is compared with the one that
lets the list grow. Up to the first candidate for which there is no room both take the
same steps. If there is room for all candidates, both end with the same outcome
(`halts_of_fits`). Otherwise the growing search makes one step that takes the list beyond
the capacity (`exists_crossing`); the stopping search comes to the same box and ends there
with the candidates before it (`returns_full`).
-/

set_option autoImplicit false

namespace Paving

namespace Config

/-- The settings with a list of candidates that grows. -/
def growing (c : Config) : Config :=
  { c with overflow := .grow }

/-- The settings with a list of candidates that ends the search when it is full. -/
def stopping (c : Config) : Config :=
  { c with overflow := .stop }

theorem withCapacity_eq_ok {c c' : Config} {k : Nat} (h : c.withCapacity k = .ok c') :
    c.Agrees c' ∧ c'.maxBranchings = c.maxBranchings := by
  rw [withCapacity] at h
  split at h
  · cases h
    exact ⟨⟨rfl, rfl, rfl⟩, rfl⟩
  · cases h

end Config

namespace Search

universe u

variable {σ : Type u}

/-! ## Accepted boxes -/

/-- The box that was accepted at a visit, if one was, with the number of the visit. -/
def Visit.acceptance (v : Visit) : Option (Box × Nat) :=
  match v.event with
  | some (.accepted kept _) => some (kept, v.number)
  | _ => none

/-- The accepted boxes in order, each with the number of its visit. -/
def acceptances (visits : Array Visit) : List (Box × Nat) :=
  visits.toList.filterMap Visit.acceptance

theorem acceptances_push (visits : Array Visit) (v : Visit) :
    acceptances (visits.push v) = acceptances visits ++ v.acceptance.toList := by
  rw [acceptances, Array.toList_push, List.filterMap_append]
  cases hv : v.acceptance with
  | none => rw [List.filterMap_cons_none hv]; rfl
  | some x => rw [List.filterMap_cons_some hv]; rfl

theorem acceptances_push_none (visits : Array Visit) {v : Visit} (h : v.acceptance = none) :
    acceptances (visits.push v) = acceptances visits := by
  rw [acceptances_push, h]
  exact List.append_nil _

/-- The candidates are the accepted boxes. -/
def State.Recorded (s : State Unit) : Prop :=
  s.boxes.toList = (acceptances s.visits).map Prod.fst

section Recorded

variable {cs : List Constraint} {c : Config} {s s' : State Unit} {o : Outcome Unit}

theorem State.Recorded.size_eq (hs : s.Recorded) :
    s.boxes.size = (acceptances s.visits).length := by
  rw [← List.length_map Prod.fst, ← hs]
  rfl

theorem recorded_of_moves (h : Moves cs c Observer.silent s s') (hs : s.Recorded) :
    s'.Recorded := by
  cases h with
  | pruned => exact hs.trans (congrArg _ (acceptances_push_none _ rfl).symm)
  | @recorded b kept rest =>
    show (s.boxes.push kept).toList = (acceptances (s.visits.push _)).map Prod.fst
    rw [acceptances_push, Array.toList_push, List.map_append, hs]
    rfl
  | dropped _ _ _ _ hreply => cases hreply
  | split => exact hs.trans (congrArg _ (acceptances_push_none _ rfl).symm)
  | left _ _ _ hreply => cases hreply

/-- Without an observer every accepted box is recorded. -/
theorem recorded_of_reaches (h : Reaches cs c Observer.silent s s') (hs : s.Recorded) :
    s'.Recorded := by
  induction h with
  | refl => exact hs
  | tail _ hstep ih => exact recorded_of_moves (moves_of_step hstep) ih

theorem recorded_initial (initial : Box) : (State.initial initial ()).Recorded :=
  rfl

/-- The last visit of a search accepts no box. -/
theorem acceptances_of_ends (h : Ends cs c Observer.silent s o) :
    acceptances o.visits = acceptances s.visits := by
  cases h with
  | exhausted => rfl
  | limit => rfl
  | unmeasured => exact acceptances_push_none _ rfl
  | full => exact acceptances_push_none _ rfl
  | stopped _ _ _ hreply => cases hreply
  | unsplit => exact acceptances_push_none _ rfl

/-- Without an observer the result is the list of accepted boxes. -/
theorem boxes_eq_acceptances {initial : Box} {solution : Solution}
    (h : Halts cs c Observer.silent (.initial initial ()) o) (hresult : o.result = .ok solution) :
    solution.boxes = (acceptances o.visits).map Prod.fst := by
  obtain ⟨s, hs, hstep⟩ := h
  have hends := ends_of_step hstep
  rw [boxes_of_ends hends hresult, acceptances_of_ends hends]
  exact recorded_of_reaches hs (recorded_initial initial)

end Recorded

/-! ## Room for all candidates -/

section Fits

variable {cs : List Constraint} {c c' : Config} {initial : Box} {s : State Unit} {o : Outcome Unit}

/-- What ends a growing search ends every search with the same limit on visits. -/
theorem ends_of_growing (hagree : c.Agrees c') (hmax : c'.maxBranchings = c.maxBranchings)
    (hgrow : c.overflow = .grow) (h : Ends cs c Observer.silent s o) :
    Ends cs c' Observer.silent s o := by
  apply ends_of_agrees hagree _ _ h
  · intro _
    rw [Config.limitReached, Config.limitReached, hmax]
  · intro hfull
    obtain ⟨hstop, -⟩ := Config.refuses_iff.1 hfull
    rw [hgrow] at hstop
    cases hstop

/-- A growing search ends in the same way under settings with room for everything that
it accepts. -/
theorem halts_of_fits (hagree : c.Agrees c') (hmax : c'.maxBranchings = c.maxBranchings)
    (hgrow : c.overflow = .grow) (h : Halts cs c Observer.silent (.initial initial ()) o)
    (hfits : c'.overflow = .stop → (acceptances o.visits).length ≤ c'.capacity) :
    Halts cs c' Observer.silent (.initial initial ()) o := by
  obtain ⟨s, hs, hstep⟩ := h
  have hends := ends_of_step hstep
  have hrecorded := recorded_of_reaches hs (recorded_initial initial)
  rw [acceptances_of_ends hends, ← hrecorded.size_eq] at hfits
  have hpermits : c'.Permits s.boxes.size s.branchings := by
    refine ⟨hfits, ?_⟩
    rw [hmax]
    exact (permits_of_reaches hs c.permits_zero).visits_le
  exact ⟨s, reaches_of_permits hagree hs hpermits,
    step_of_ends (ends_of_growing hagree hmax hgrow hends)⟩

end Fits

/-! ## The first candidate without room -/

/-- A run that takes a quantity beyond a bound has a step that does. -/
theorem exists_crossing {α : Type u} {r : α → α → Prop} (f : α → Nat) {a b : α} {k : Nat}
    (h : Relation.ReflTransGen r a b) (ha : f a ≤ k) (hb : k < f b) :
    ∃ t u, Relation.ReflTransGen r a t ∧ r t u ∧ Relation.ReflTransGen r u b ∧
      f t ≤ k ∧ k < f u := by
  induction h with
  | refl => exact absurd hb (Nat.not_lt.2 ha)
  | @tail t u hat htu ih =>
    by_cases ht : k < f t
    · obtain ⟨v, w, hav, hvw, hwt, hv, hw⟩ := ih ht
      exact ⟨v, w, hav, hvw, hwt.tail htu, hv, hw⟩
    · exact ⟨t, u, hat, htu, .refl, Nat.not_lt.1 ht, hb⟩

section Full

variable {cs : List Constraint} {c : Config} {initial : Box} {s : State Unit} {o : Outcome Unit}

theorem agrees_growing_stopping (c : Config) : c.growing.Agrees c.stopping :=
  ⟨rfl, rfl, rfl⟩

/-- If a growing search has recorded more candidates than there is room for, it came to a
state with a full list and recorded one more. -/
theorem exists_overflowing_step
    (hs : Reaches cs c.growing Observer.silent (.initial initial ()) s)
    (hmore : c.capacity < s.boxes.size) :
    ∃ (t : State Unit) (b kept : Box) (rest : List Box),
      Reaches cs c.growing Observer.silent (.initial initial ()) t ∧ t.boxes.size = c.capacity ∧
        t.stack = b :: rest ∧ c.limitReached t.branchings = false ∧
        classify cs c b = .ok (.accepted kept) ∧ t.Extends s ∧
        acceptances t.visits ++ [(kept, t.branchings + 1)] <+: acceptances s.visits := by
  obtain ⟨t, u, ht, hstep, hu, hle, hlt⟩ :=
    exists_crossing (fun t : State Unit => t.boxes.size) hs (Nat.zero_le _) hmore
  have hmoves := moves_of_step hstep
  have hextends := (extends_of_moves hmoves).trans (extends_of_reaches hu)
  have hprefix := (extends_of_reaches hu).visits.filterMap Visit.acceptance
  -- Only the step that records a box makes the list longer.
  cases hmoves with
  | pruned => exact absurd hlt (Nat.not_lt.2 hle)
  | dropped => exact absurd hlt (Nat.not_lt.2 hle)
  | split => exact absurd hlt (Nat.not_lt.2 hle)
  | left => exact absurd hlt (Nat.not_lt.2 hle)
  | @recorded b kept rest hstack hlimit hverdict =>
    have hpush : c.capacity < (t.boxes.push kept).size := hlt
    rw [Array.size_push] at hpush
    have hsize : t.boxes.size = c.capacity := Nat.le_antisymm hle (Nat.le_of_lt_succ hpush)
    refine ⟨t, b, kept, rest, ht, hsize, hstack, hlimit, hverdict, hextends, ?_⟩
    have hpushed : acceptances (t.visits.push
        ⟨b, t.branchings + 1, some (.accepted kept (t.branchings + 1)), none⟩) =
          acceptances t.visits ++ [(kept, t.branchings + 1)] := acceptances_push _ _
    rw [← hpushed]
    exact hprefix

/-- If a growing search accepts more boxes than there is room for, the stopping search ends
at the visit of the first one too many, with the ones before it. -/
theorem returns_full (ho : Halts cs c.growing Observer.silent (.initial initial ()) o)
    (hmore : c.capacity < (acceptances o.visits).length) :
    ∃ b n, (acceptances o.visits)[c.capacity]? = some (b, n) ∧
      Returns cs c.stopping initial
        (.ok ⟨.capacityReached, ((acceptances o.visits).map Prod.fst).take c.capacity, n⟩) := by
  obtain ⟨s, hs, hstep⟩ := ho
  have hrecorded := recorded_of_reaches hs (recorded_initial initial)
  have hcandidates : s.boxes.toList = (acceptances s.visits).map Prod.fst := hrecorded
  rw [acceptances_of_ends (ends_of_step hstep)] at hmore ⊢
  rw [← hrecorded.size_eq] at hmore
  rw [← hcandidates]
  obtain ⟨t, b, kept, rest, ht, hsize, hstack, hlimit, hverdict, hextends, later, hlater⟩ :=
    exists_overflowing_step hs hmore
  have hstopping : Reaches cs c.stopping Observer.silent (.initial initial ()) t := by
    refine reaches_of_permits (agrees_growing_stopping c) ht ⟨fun _ => Nat.le_of_eq hsize, ?_⟩
    exact (permits_of_reaches ht c.growing.permits_zero).visits_le
  have hfull : c.stopping.refuses t.boxes.size = true :=
    Config.refuses_iff.2 ⟨rfl, Nat.le_of_eq hsize.symm⟩
  refine ⟨kept, t.branchings + 1, ?_, ((t.take rest).pass b).finish .capacityReached,
    ⟨t, hstopping, step_of_ends (.full hstack hlimit hverdict hfull)⟩, ?_⟩
  · have hlength := (recorded_of_reaches ht (recorded_initial initial)).size_eq
    rw [← hlater, ← hsize, hlength]
    simp
  · have hboxes := List.prefix_iff_eq_take.1 hextends.boxes
    rw [Array.length_toList, hsize] at hboxes
    rw [← hboxes]
    rfl

end Full

/-! ## Results -/

/-- A search that ends for want of room has filled its list, whatever its observer. -/
theorem length_of_capacityReached {cs : List Constraint} {c : Config} {initial : Box}
    {observe : Observer σ} {start : σ} {o : Outcome σ} {solution : Solution}
    (h : Halts cs c observe (.initial initial start) o) (hresult : o.result = .ok solution)
    (hstatus : solution.status = .capacityReached) : solution.boxes.length = c.capacity := by
  obtain ⟨s, hs, hstep⟩ := h
  have hpermits := permits_of_reaches hs c.permits_zero
  cases ends_of_step hstep with
  | full _ _ _ hroom =>
    cases hresult
    obtain ⟨hstop, hle⟩ := Config.refuses_iff.1 hroom
    exact Nat.le_antisymm (hpermits.candidates_le hstop) hle
  | exhausted => cases hresult; cases hstatus
  | limit => cases hresult; cases hstatus
  | unmeasured => cases hresult
  | stopped => cases hresult; cases hstatus
  | unsplit => cases hresult

/-- A growing search does not depend on the capacity. -/
theorem halts_growing_of_withCapacity {cs : List Constraint} {c c' : Config} {k : Nat}
    {initial : Box} (h : c.withCapacity k = .ok c') (o : Outcome Unit) :
    Halts cs c'.growing Observer.silent (.initial initial ()) o ↔
      Halts cs c.growing Observer.silent (.initial initial ()) o := by
  obtain ⟨hagree, hmax⟩ := Config.withCapacity_eq_ok h
  have hgrowing : c.growing.Agrees c'.growing := ⟨hagree.eps, hagree.pruning, hagree.order⟩
  constructor
  · intro ho
    exact halts_of_fits hgrowing.symm hmax.symm rfl ho fun hstop => nomatch hstop
  · intro ho
    exact halts_of_fits hgrowing hmax rfl ho fun hstop => nomatch hstop

/-- What the capacity does to a search without an observer, for arbitrary constraints. A
growing search does not depend on it. If the growing search ends with no more candidates
than there is room for, the stopping search ends with the same solution; if it has more,
the stopping search ends with as many of them as there is room for, at the visit of the
next one; and if it fails, the stopping search fails too or ends for want of room before.
With any observer a search that ends for want of room has filled its list. For problems
all of this is about the results of `solve`. -/
theorem full_search_keeps_first_candidates (cs : List Constraint) (c : Config) (initial : Box) :
    (∀ k c', c.withCapacity k = .ok c' → ∀ o,
        Halts cs c'.growing Observer.silent (.initial initial ()) o ↔
          Halts cs c.growing Observer.silent (.initial initial ()) o) ∧
      (∀ o, Halts cs c.growing Observer.silent (.initial initial ()) o →
        (∀ solution, o.result = .ok solution →
          (solution.boxes.length ≤ c.capacity →
            Returns cs c.stopping initial (.ok solution)) ∧
          (c.capacity < solution.boxes.length →
            ∃ b n, solution.boxes[c.capacity]? = some b ∧
              (acceptances o.visits)[c.capacity]? = some (b, n) ∧
              Returns cs c.stopping initial
                (.ok ⟨.capacityReached, solution.boxes.take c.capacity, n⟩))) ∧
        ∀ e, o.result = .error e →
          Returns cs c.stopping initial (.error e) ∨
            ∃ boxes n, Returns cs c.stopping initial (.ok ⟨.capacityReached, boxes, n⟩)) ∧
      (∀ {σ : Type u} (observe : Observer σ) (start : σ) (o : Outcome σ) (solution : Solution),
        Halts cs c observe (.initial initial start) o → o.result = .ok solution →
          solution.status = .capacityReached → solution.boxes.length = c.capacity) ∧
      ∀ (problem : Problem) (c' : Config), problem.constraints = cs → ∀ result,
        Returns cs c' initial result ↔ (problem.solve initial c').result = result := by
  refine ⟨fun k c' h o => halts_growing_of_withCapacity h o, fun o ho => ⟨?_, ?_⟩,
    fun observe start o solution => length_of_capacityReached, ?_⟩
  · intro solution hresult
    have hboxes := boxes_eq_acceptances ho hresult
    constructor
    · intro hfits
      rw [hboxes, List.length_map] at hfits
      exact ⟨o, halts_of_fits (agrees_growing_stopping c) rfl rfl ho fun _ => hfits, hresult⟩
    · intro hmore
      rw [hboxes, List.length_map] at hmore
      obtain ⟨b, n, hnext, hreturns⟩ := returns_full ho hmore
      refine ⟨b, n, ?_, hnext, ?_⟩
      · rw [hboxes, List.getElem?_map, hnext]
        rfl
      · rw [hboxes]
        exact hreturns
  · intro e herror
    by_cases hfits : (acceptances o.visits).length ≤ c.capacity
    · exact .inl ⟨o, halts_of_fits (agrees_growing_stopping c) rfl rfl ho fun _ => hfits, herror⟩
    · obtain ⟨b, n, -, hreturns⟩ := returns_full ho (Nat.lt_of_not_le hfits)
      exact .inr ⟨_, n, hreturns⟩
  · rintro problem c' rfl result
    exact returns_iff_solve problem c' initial result

/-- The settings with tolerance one half and room for two candidates. -/
def pairConfig : Config :=
  { halfConfig with capacity := 2, capacity_pos := by decide }

/-- Three quarters of `[-1, 1]` are not left of zero. With room for two of them the search
ends at the seventh visit, which is that of the third. -/
theorem quarters_cut_short : ∃ solution,
    Returns [notLeftOfZero] pairConfig.growing Box.unitSegment (.ok solution) ∧
      solution.boxes.length = 3 ∧
      Returns [notLeftOfZero] pairConfig.stopping Box.unitSegment
        (.ok ⟨.capacityReached, solution.boxes.take 2, 7⟩) := by
  have hsteps : (steps [notLeftOfZero] pairConfig.growing Observer.silent 8
      (.initial Box.unitSegment ())).endsWith (fun o solution =>
        decide (solution.boxes.length = 3 ∧ (acceptances o.visits)[2]?.map Prod.snd = some 7)) =
          true := by
    decide +kernel
  obtain ⟨o, solution, hhalts, hresult, htest⟩ := exists_of_endsWith hsteps
  obtain ⟨hthree, hseven⟩ := of_decide_eq_true htest
  have hcut := (((full_search_keeps_first_candidates.{0} [notLeftOfZero] pairConfig
    Box.unitSegment).2.1 o hhalts).1 solution hresult).2
  obtain ⟨b, n, -, hnext, hreturns⟩ := hcut (by rw [hthree]; decide)
  have hvisit : (acceptances o.visits)[2]? = some (b, n) := hnext
  rw [hvisit] at hseven
  cases hseven
  exact ⟨solution, ⟨o, hhalts, hresult⟩, hthree, hreturns⟩

end Search

end Paving
