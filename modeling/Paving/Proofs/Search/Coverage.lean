import Paving.Proofs.Constraint
import Paving.Proofs.Search.Steps

/-!
# The search loses no point

A point that every constraint keeps is never lost by the search itself: after every
step it lies in a box still on the stack, in a recorded box, or in a box that the
observer discarded. `State.Covers` is this invariant. Pruning keeps the point
(`exists_prune_eq_ok`), a split passes it on to one of the halves
(`mem_halves`), and what is left of the stack is not touched, so one step
preserves the invariant (`covers_of_moves`) and so does a run
(`covers_of_reaches`).

The constraints are asked to keep the point on the visited boxes only
(`mem_boxes_or_discards_of_halts`). Constraints that are sound for their sets of
satisfying points do so on every box (`search_keeps_satisfying_points`).
-/

set_option autoImplicit false

namespace Paving

namespace Search

universe u

variable {σ : Type u}

/-! ## Pruning keeps points -/

theorem evaluate_eq_ok {cs : List Constraint} {b : Box} (h : ∀ k ∈ cs, k.violated b = false) :
    evaluate cs b = .ok b := by
  have hnone : firstViolated cs b = none := by
    rw [firstViolated, List.findIdx?_eq_none_iff]
    intro k hk
    rw [h k hk]
  rw [evaluate, hnone]

/-- The constraints in turn, each with the box it narrows: what the ones before it
left. -/
def narrowings : List Constraint → Box → List (Constraint × Box)
  | [], _ => []
  | k :: cs, b => (k, b) :: narrowings cs (k.contract b).1

theorem mem_of_mem_narrowings {cs : List Constraint} {b : Box} {turn : Constraint × Box}
    (h : turn ∈ narrowings cs b) : turn.1 ∈ cs := by
  induction cs generalizing b with
  | nil => cases h
  | cons k cs ih =>
    -- The first constraint has the box itself, the others what it left.
    rcases List.mem_cons.1 h with rfl | hrest
    · exact List.mem_cons_self
    · exact List.mem_cons_of_mem k (ih hrest)

/-- Narrowing by all constraints in turn keeps a point that each of them keeps on
the box it is given. -/
theorem exists_contractFrom_eq_ok {cs : List Constraint} {p : List ℝ} (i : Nat) {b : Box}
    (hb : p ∈ b) (h : ∀ turn ∈ narrowings cs b, p ∈ turn.2 → Box.Keeps (turn.1.contract turn.2) p) :
    ∃ kept, contractFrom i cs b = .ok kept ∧ p ∈ kept := by
  induction cs generalizing i b with
  | nil => exact ⟨b, rfl, hb⟩
  | cons k cs ih =>
    -- The induction is on the constraints, with the box they are given generalised.
    obtain ⟨hmem, hflag⟩ := h (k, b) List.mem_cons_self hb
    rw [contractFrom, hflag]
    exact ih (i + 1) hmem fun turn hturn => h turn (List.mem_cons_of_mem _ hturn)

/-- Pruning keeps a point if no constraint is violated where it is evaluated, and
each keeps the point where it narrows. -/
theorem exists_prune_eq_ok {mode : Pruning} {cs : List Constraint} {b : Box} {p : List ℝ}
    (hb : p ∈ b) (hfirst : ∀ k ∈ cs, k.violated b = false)
    (hturns : mode = .contract →
      ∀ turn ∈ narrowings cs b, p ∈ turn.2 → Box.Keeps (turn.1.contract turn.2) p)
    (hlast : mode = .contract → ∀ kept, contractFrom 0 cs b = .ok kept → p ∈ kept →
      ∀ k ∈ cs, k.violated kept = false) :
    ∃ kept, prune mode cs b = .ok kept ∧ p ∈ kept := by
  cases mode with
  | evaluate =>
    refine ⟨b, ?_, hb⟩
    rw [prune, evaluate_eq_ok hfirst]
    rfl
  | contract =>
    obtain ⟨kept, hkept, hmem⟩ := exists_contractFrom_eq_ok 0 hb (hturns rfl)
    refine ⟨kept, ?_, hmem⟩
    rw [prune, evaluate_eq_ok hfirst]
    show (contractFrom 0 cs b >>= fun left => evaluate cs left) = _
    rw [hkept]
    exact evaluate_eq_ok (hlast rfl kept hkept hmem)

/-- The box that pruning leaves is the one that is accepted or split. -/
theorem verdict_of_prune_eq_ok {cs : List Constraint} {c : Config} {b kept : Box}
    {verdict : Verdict} (hprune : prune c.pruning cs b = .ok kept)
    (h : classify cs c b = .ok verdict) :
    verdict = .accepted kept ∨ ∃ axis, verdict = .bisecting kept axis := by
  rw [classify, hprune] at h
  dsimp only at h
  split at h
  · cases h
  · split at h
    · cases h
      exact .inl rfl
    · cases h
      exact .inr ⟨_, rfl⟩

theorem mem_halves {order : HalfOrder} {b first second : Box} {axis : Nat} {p : List ℝ}
    (h : halves order b axis = .ok (first, second)) (hp : p ∈ b) : p ∈ first ∨ p ∈ second := by
  rcases bisectAxis_of_halves h with hb | hb
  · exact Box.mem_halves_of_bisectAxis hb hp
  · exact (Box.mem_halves_of_bisectAxis hb hp).symm

/-! ## The invariant -/

/-- The observer dropped a box with the point `p` at this visit: an accepted box or
one that was about to be split. -/
def Visit.Discards (v : Visit) (p : List ℝ) : Prop :=
  v.answer = some .discard ∧ ∃ kept, p ∈ kept ∧
    ((∃ n, v.event = some (.accepted kept n)) ∨ ∃ axis n, v.event = some (.bisecting kept axis n))

/-- The point lies in a box on the stack, in a recorded box, or in a discarded
one. -/
def State.Covers (s : State σ) (p : List ℝ) : Prop :=
  (∃ b ∈ s.stack, p ∈ b) ∨ (∃ b ∈ s.boxes, p ∈ b) ∨ ∃ v ∈ s.visits, v.Discards p

section Invariant

variable {cs : List Constraint} {c : Config} {observe : Observer σ} {s s' : State σ}
  {p : List ℝ}

theorem State.covers_initial {initial : Box} (hp : p ∈ initial) (start : σ) :
    (State.initial initial start).Covers p :=
  .inl ⟨initial, List.mem_cons_self, hp⟩

/-- A step visits the next box and keeps the visits before it. -/
theorem visits_of_moves (h : Moves cs c observe s s') :
    ∃ b rest v, s.stack = b :: rest ∧ v.box = b ∧ s'.visits = s.visits.push v := by
  cases h with
  | pruned hstack => exact ⟨_, _, _, hstack, rfl, rfl⟩
  | recorded hstack => exact ⟨_, _, _, hstack, rfl, rfl⟩
  | dropped hstack => exact ⟨_, _, _, hstack, rfl, rfl⟩
  | split hstack => exact ⟨_, _, _, hstack, rfl, rfl⟩
  | left hstack => exact ⟨_, _, _, hstack, rfl, rfl⟩

/-- A point that lies elsewhere than in the next box is not touched by a step. -/
theorem covers_of_moves_of_not_next (h : Moves cs c observe s s') {b : Box} {rest : List Box}
    (hstack : s.stack = b :: rest)
    (hp : (∃ d ∈ rest, p ∈ d) ∨ (∃ d ∈ s.boxes, p ∈ d) ∨ ∃ v ∈ s.visits, v.Discards p) :
    s'.Covers p := by
  -- Whatever is done with the next box, the stack below it and the records stay.
  have hstep : (∀ d ∈ rest, d ∈ s'.stack) ∧ (∀ d ∈ s.boxes, d ∈ s'.boxes) := by
    cases h with
    | pruned hs | dropped hs | left hs =>
      rw [hstack] at hs
      cases hs
      exact ⟨fun d hd => hd, fun d hd => hd⟩
    | recorded hs =>
      rw [hstack] at hs
      cases hs
      exact ⟨fun d hd => hd, fun d hd => Array.mem_push_of_mem _ hd⟩
    | split hs =>
      rw [hstack] at hs
      cases hs
      exact ⟨fun d hd => List.mem_cons_of_mem _ (List.mem_cons_of_mem _ hd), fun d hd => hd⟩
  obtain ⟨-, -, v, -, -, hvisits⟩ := visits_of_moves h
  rcases hp with ⟨d, hd, hpd⟩ | ⟨d, hd, hpd⟩ | ⟨w, hw, hpw⟩
  · exact .inl ⟨d, hstep.1 d hd, hpd⟩
  · exact .inr (.inl ⟨d, hstep.2 d hd, hpd⟩)
  · refine .inr (.inr ⟨w, ?_, hpw⟩)
    rw [hvisits]
    exact Array.mem_push_of_mem v hw

/-- One step covers every point that was covered, provided that pruning keeps it in
the next box. -/
theorem covers_of_moves (h : Moves cs c observe s s')
    (hkeep : ∀ b rest, s.stack = b :: rest → p ∈ b →
      ∃ kept, prune c.pruning cs b = .ok kept ∧ p ∈ kept)
    (hp : s.Covers p) : s'.Covers p := by
  obtain ⟨b, rest, v, hstack, -, -⟩ := visits_of_moves h
  rcases hp with ⟨d, hd, hpd⟩ | hboxes | hvisits
  · rw [hstack] at hd
    rcases List.mem_cons.1 hd with rfl | hrest
    · -- The point lies in the next box: follow what pruning left of it.
      obtain ⟨kept, hprune, hmem⟩ := hkeep d rest hstack hpd
      cases h with
      | pruned hs _ hverdict =>
        rw [hstack] at hs
        cases hs
        rcases verdict_of_prune_eq_ok hprune hverdict with hv | ⟨_, hv⟩ <;> cases hv
      | recorded hs _ hverdict =>
        rw [hstack] at hs
        cases hs
        rcases verdict_of_prune_eq_ok hprune hverdict with hv | ⟨_, hv⟩ <;> cases hv
        exact .inr (.inl ⟨kept, Array.mem_push_self, hmem⟩)
      | dropped hs _ hverdict _ hreply =>
        rw [hstack] at hs
        cases hs
        rcases verdict_of_prune_eq_ok hprune hverdict with hv | ⟨_, hv⟩ <;> cases hv
        exact .inr (.inr ⟨_, Array.mem_push_self, hreply, kept, hmem, .inl ⟨_, rfl⟩⟩)
      | split hs _ hverdict _ hhalves =>
        rw [hstack] at hs
        cases hs
        rcases verdict_of_prune_eq_ok hprune hverdict with hv | ⟨_, hv⟩ <;> cases hv
        rcases mem_halves hhalves hmem with hfirst | hsecond
        · exact .inl ⟨_, List.mem_cons_self, hfirst⟩
        · exact .inl ⟨_, List.mem_cons_of_mem _ List.mem_cons_self, hsecond⟩
      | left hs _ hverdict hreply =>
        rw [hstack] at hs
        cases hs
        rcases verdict_of_prune_eq_ok hprune hverdict with hv | ⟨_, hv⟩ <;> cases hv
        exact .inr (.inr ⟨_, Array.mem_push_self, hreply, kept, hmem, .inr ⟨_, _, rfl⟩⟩)
    · exact covers_of_moves_of_not_next h hstack (.inl ⟨d, hrest, hpd⟩)
  · exact covers_of_moves_of_not_next h hstack (.inr (.inl hboxes))
  · exact covers_of_moves_of_not_next h hstack (.inr (.inr hvisits))

/-- A run covers every point that was covered, provided that pruning keeps it in the
boxes that are visited. -/
theorem covers_of_reaches (h : Reaches cs c observe s s')
    (hkeep : ∀ v ∈ s'.visits, p ∈ v.box → ∃ kept, prune c.pruning cs v.box = .ok kept ∧ p ∈ kept)
    (hp : s.Covers p) : s'.Covers p := by
  induction h with
  | refl => exact hp
  | tail _ hstep ih =>
    -- The box of the last step is among the visits of the state it leads to.
    have hmoves := moves_of_step hstep
    obtain ⟨b, rest, v, hstack, rfl, hvisits⟩ := visits_of_moves hmoves
    refine covers_of_moves hmoves ?_ (ih fun w hw => hkeep w ?_)
    · intro d rest' hs hpd
      rw [hstack] at hs
      cases hs
      exact hkeep v (hvisits ▸ Array.mem_push_self) hpd
    · rw [hvisits]
      exact Array.mem_push_of_mem v hw

/-- The search ends as exhausted only when nothing is left on the stack. -/
theorem exhausted_of_step {o : Outcome σ} {solution : Solution}
    (h : step cs c observe s = .halt o) (hresult : o.result = .ok solution)
    (hstatus : solution.status = .exhausted) : s.stack = [] ∧ o = s.finish .exhausted := by
  cases ends_of_step h with
  | exhausted hstack => exact ⟨hstack, rfl⟩
  | limit => cases hresult; cases hstatus
  | unmeasured => cases hresult
  | full => cases hresult; cases hstatus
  | stopped => cases hresult; cases hstatus
  | unsplit => cases hresult

/-- At the end of an exhausted search every covered point lies in a candidate or in
a discarded box. -/
theorem mem_boxes_or_discards_of_halts {o : Outcome σ} {solution : Solution}
    (h : Halts cs c observe s o) (hresult : o.result = .ok solution)
    (hstatus : solution.status = .exhausted)
    (hkeep : ∀ v ∈ o.visits, p ∈ v.box → ∃ kept, prune c.pruning cs v.box = .ok kept ∧ p ∈ kept)
    (hp : s.Covers p) : (∃ b ∈ solution.boxes, p ∈ b) ∨ ∃ v ∈ o.visits, v.Discards p := by
  obtain ⟨t, ht, hstep⟩ := h
  obtain ⟨hstack, rfl⟩ := exhausted_of_step hstep hresult hstatus
  cases hresult
  rcases covers_of_reaches ht hkeep hp with ⟨b, hb, -⟩ | ⟨b, hb, hpb⟩ | hvisits
  · rw [hstack] at hb
    cases hb
  · exact .inl ⟨b, Array.mem_toList_iff.2 hb, hpb⟩
  · exact .inr hvisits

end Invariant

/-! ## Searches without an observer -/

section Silent

variable {cs : List Constraint} {c : Config} {s s' : State Unit} {p : List ℝ}

/-- No visit so far got an answer. -/
def State.Quiet (s : State Unit) : Prop :=
  ∀ v ∈ s.visits, v.answer = none

theorem quiet_hear (hs : s.Quiet) (rest : List Box) (b : Box) (event : Event) :
    (s.hear Observer.silent rest b event).Quiet := by
  intro v hv
  rw [visits_hear] at hv
  rcases Array.mem_push.1 hv with hold | rfl
  · exact hs v hold
  · rfl

theorem quiet_of_moves (h : Moves cs c Observer.silent s s') (hs : s.Quiet) : s'.Quiet := by
  cases h with
  | pruned => exact quiet_hear hs _ _ _
  | recorded => exact quiet_hear hs _ _ _
  | dropped => exact quiet_hear hs _ _ _
  | split => exact quiet_hear hs _ _ _
  | left => exact quiet_hear hs _ _ _

theorem quiet_of_reaches (h : Reaches cs c Observer.silent s s') (hs : s.Quiet) : s'.Quiet := by
  induction h with
  | refl => exact hs
  | tail _ hstep ih => exact quiet_of_moves (moves_of_step hstep) ih

/-- Without an observer every covered point lies in a candidate at the end of an
exhausted search. -/
theorem mem_boxes_of_halts {o : Outcome Unit} {solution : Solution}
    (h : Halts cs c Observer.silent s o) (hs : s.Quiet) (hresult : o.result = .ok solution)
    (hstatus : solution.status = .exhausted)
    (hkeep : ∀ v ∈ o.visits, p ∈ v.box → ∃ kept, prune c.pruning cs v.box = .ok kept ∧ p ∈ kept)
    (hp : s.Covers p) : ∃ b ∈ solution.boxes, p ∈ b := by
  rcases mem_boxes_or_discards_of_halts h hresult hstatus hkeep hp with hbox | ⟨v, hv, hdiscard, -⟩
  · exact hbox
  · obtain ⟨t, ht, hstep⟩ := h
    obtain ⟨-, rfl⟩ := exhausted_of_step hstep hresult hstatus
    have hanswer := quiet_of_reaches ht hs v hv
    rw [hanswer] at hdiscard
    cases hdiscard

end Silent

/-! ## Sound constraints -/

theorem exists_soundFor_of_mem {cs : List Constraint} {sets : List (Set (List ℝ))}
    (hsound : List.Forall₂ Constraint.SoundFor cs sets) {p : List ℝ} (hall : ∀ S ∈ sets, p ∈ S)
    {k : Constraint} (hk : k ∈ cs) : ∃ S, k.SoundFor S ∧ p ∈ S := by
  induction hsound with
  | nil => cases hk
  | @cons l S cs sets hl _ ih =>
    rcases List.mem_cons.1 hk with rfl | hrest
    · exact ⟨S, hl, hall S List.mem_cons_self⟩
    · exact ih (fun T hT => hall T (List.mem_cons_of_mem S hT)) hrest

/-- Constraints that are sound for their sets of satisfying points keep a point that
satisfies them all through every pruning. -/
theorem exists_prune_eq_ok_of_sound {cs : List Constraint} {sets : List (Set (List ℝ))}
    (hsound : List.Forall₂ Constraint.SoundFor cs sets) {p : List ℝ} (hall : ∀ S ∈ sets, p ∈ S)
    (mode : Pruning) {b : Box} (hb : p ∈ b) : ∃ kept, prune mode cs b = .ok kept ∧ p ∈ kept := by
  refine exists_prune_eq_ok hb ?_ ?_ ?_
  · intro k hk
    obtain ⟨S, hkS, hpS⟩ := exists_soundFor_of_mem hsound hall hk
    exact hkS.not_violated hb hpS
  · intro _ turn hturn hmem
    obtain ⟨S, hkS, hpS⟩ := exists_soundFor_of_mem hsound hall (mem_of_mem_narrowings hturn)
    exact hkS.keeps hmem hpS
  · intro _ kept _ hkept k hk
    obtain ⟨S, hkS, hpS⟩ := exists_soundFor_of_mem hsound hall hk
    exact hkS.not_violated hkept hpS

/-- Under sound constraints the search loses no point of the initial box that
satisfies them all, whatever the settings and the observer: after every step the
point is covered, and when an exhausted search ends it lies in a candidate or in a
box that the observer discarded. -/
theorem search_keeps_satisfying_points {cs : List Constraint} {sets : List (Set (List ℝ))}
    (hsound : List.Forall₂ Constraint.SoundFor cs sets) (c : Config) (observe : Observer σ)
    (initial : Box) (start : σ) {p : List ℝ} (hp : p ∈ initial) (hall : ∀ S ∈ sets, p ∈ S) :
    (∀ s, Reaches cs c observe (.initial initial start) s → s.Covers p) ∧
      (∀ o solution, Halts cs c observe (.initial initial start) o → o.result = .ok solution →
        solution.status = .exhausted →
          (∃ b ∈ solution.boxes, p ∈ b) ∨ ∃ v ∈ o.visits, v.Discards p) ∧
      ∀ problem : Problem, problem.constraints = cs →
        Halts cs c observe (.initial initial start) (problem.search initial c observe start) := by
  have hkeep : ∀ v : Visit, p ∈ v.box → ∃ kept, prune c.pruning cs v.box = .ok kept ∧ p ∈ kept :=
    fun v hv => exists_prune_eq_ok_of_sound hsound hall c.pruning hv
  have hcovers : (State.initial initial start).Covers p := State.covers_initial hp start
  refine ⟨?_, ?_, ?_⟩
  · intro s hs
    exact covers_of_reaches hs (fun v _ => hkeep v) hcovers
  · intro o solution ho hresult hstatus
    exact mem_boxes_or_discards_of_halts ho hresult hstatus (fun v _ => hkeep v) hcovers
  · rintro problem rfl
    exact halts_run problem c observe (.initial initial start)

/-- The half-line to the left of zero is ruled out, whatever the other axes. -/
def notLeftOfZero : Constraint :=
  .ofTest fun b => decide ((b.components.head b.nonempty).ub < Binary64.zero)

/-- The problem of finding points that are not left of zero. -/
def notLeftProblem : Problem where
  constraints := [notLeftOfZero]
  narrows := List.forall_mem_singleton.2 (Constraint.narrows_ofTest _)

theorem soundFor_notLeftOfZero : notLeftOfZero.SoundFor {p | ∃ t rest, p = t :: rest ∧ 0 ≤ t} := by
  have hviolated : ∀ b : Box, notLeftOfZero.violated b = true →
      ∀ p ∈ b, p ∉ {p | ∃ t rest, p = t :: rest ∧ 0 ≤ t} := by
    rintro b hv p hb ⟨t, rest, rfl, ht⟩
    have hlt : (b.components.head b.nonempty).ub < Binary64.zero := of_decide_eq_true hv
    have hhead : b.components[0]? = some (b.components.head b.nonempty) := by
      rw [← List.head?_eq_getElem?, List.head?_eq_some_head b.nonempty]
    have hmem := Interval.mem_iff.1 (hb.2 0 _ t hhead rfl)
    have hval : (t : EReal) ≤ (b.components.head b.nonempty).ub.value := hmem.2
    have hzero : ¬ Binary64.zero.value ≤ (b.components.head b.nonempty).ub.value := by
      rw [Binary64.value_le_value_iff hlt.2.1 hlt.1]
      exact not_le.2 hlt.2.2
    rw [Interval.value_zero] at hzero
    exact hzero (le_trans (EReal.coe_le_coe_iff.2 ht) hval)
  refine ⟨hviolated, fun b p hb _ => hb, ?_⟩
  intro b hflag p hb
  refine hviolated b ?_ p hb
  have hempty := Box.not_isEmpty_of_mem hb
  simpa [notLeftOfZero, Constraint.ofTest, hempty] using hflag

/-- The origin survives a search of `[-1, 1]` for points that are not left of zero,
with the event counter as its observer. -/
theorem search_keeps_origin :
    List.Forall₂ Constraint.SoundFor [notLeftOfZero] [{p | ∃ t rest, p = t :: rest ∧ 0 ≤ t}] ∧
      [(0 : ℝ)] ∈ Box.unitSegment ∧
      ∀ s, Reaches [notLeftOfZero] .standard Stats.observer (.initial Box.unitSegment .zero) s →
        s.Covers [0] := by
  have hsound : List.Forall₂ Constraint.SoundFor [notLeftOfZero]
      [{p | ∃ t rest, p = t :: rest ∧ 0 ≤ t}] := .cons soundFor_notLeftOfZero .nil
  have hall : ∀ S ∈ [{p : List ℝ | ∃ t rest, p = t :: rest ∧ 0 ≤ t}], [(0 : ℝ)] ∈ S := by
    intro S hS
    rw [List.mem_singleton.1 hS]
    exact ⟨0, [], rfl, le_refl 0⟩
  exact ⟨hsound, Box.zero_mem_unitSegment, (search_keeps_satisfying_points hsound .standard
    Stats.observer Box.unitSegment .zero Box.zero_mem_unitSegment hall).1⟩

end Search

end Paving
