import Paving.Proofs.Search.Steps

/-!
# Searches under different limits

The limit on the number of visits and the capacity of the list of candidates decide
how far a search gets, and nothing else. Settings that agree on the tolerance, on
pruning and on the order of the halves (`Config.Agrees`) take the same decision about
every box, so without an observer a run under one of them is a run under the other as
far as the limits of the other permit it (`reaches_of_permits`). The limits need to be
looked at in the last state only, since the candidates and the visits of a run only
grow (`extends_of_reaches`).
-/

set_option autoImplicit false

namespace Paving

namespace Config

/-- Two settings take the same decision about every box. -/
structure Agrees (c c' : Config) : Prop where
  eps : c'.eps = c.eps
  pruning : c'.pruning = c.pruning
  order : c'.order = c.order

theorem Agrees.symm {c c' : Config} (h : c.Agrees c') : c'.Agrees c :=
  ⟨h.eps.symm, h.pruning.symm, h.order.symm⟩

/-- The settings permit a number of candidates and a number of visits. -/
structure Permits (c : Config) (candidates visits : Nat) : Prop where
  candidates_le : c.overflow = .stop → candidates ≤ c.capacity
  visits_le : ∀ limit, c.maxBranchings = some limit → visits ≤ limit

section Permits

variable {c : Config} {m m' n n' : Nat}

theorem Permits.mono (h : c.Permits m n) (hm : m' ≤ m) (hn : n' ≤ n) : c.Permits m' n' :=
  ⟨fun hstop => Nat.le_trans hm (h.candidates_le hstop),
    fun limit hlimit => Nat.le_trans hn (h.visits_le limit hlimit)⟩

theorem permits_zero (c : Config) : c.Permits 0 0 :=
  ⟨fun _ => Nat.zero_le _, fun _ _ => Nat.zero_le _⟩

theorem limitReached_eq_false_iff :
    c.limitReached n = false ↔ ∀ limit, c.maxBranchings = some limit → n + 1 ≤ limit := by
  rw [limitReached]
  cases c.maxBranchings with
  | none => simp
  | some limit =>
    rw [decide_eq_false_iff_not, Nat.not_le]
    constructor
    · intro hlt limit' heq
      cases heq
      exact hlt
    · intro hall
      exact hall limit rfl

theorem refuses_iff : c.refuses m = true ↔ c.overflow = .stop ∧ c.capacity ≤ m := by
  rw [refuses, Bool.and_eq_true, decide_eq_true_iff, decide_eq_true_iff, and_comm]

theorem refuses_eq_false_iff : c.refuses m = false ↔ (c.overflow = .stop → m + 1 ≤ c.capacity) := by
  rw [← Bool.not_eq_true, refuses_iff, not_and, Nat.not_le]
  exact Iff.rfl

end Permits

/-- The settings with another order of the halves. -/
def inOrder (c : Config) (order : HalfOrder) : Config :=
  { c with order := order }

/-- The settings without a limit on visits or candidates. -/
def unlimited (c : Config) : Config :=
  { c with overflow := .grow, maxBranchings := none }

theorem agrees_unlimited (c : Config) : c.Agrees c.unlimited :=
  ⟨rfl, rfl, rfl⟩

theorem permits_unlimited (c : Config) (m n : Nat) : c.unlimited.Permits m n := by
  constructor
  · intro hstop
    cases hstop
  · intro limit hlimit
    cases hlimit

end Config

namespace Search

universe u

variable {σ : Type u}

theorem classify_congr {c c' : Config} (h : c.Agrees c') (cs : List Constraint) (b : Box) :
    classify cs c' b = classify cs c b := by
  rw [classify, classify, h.eps, h.pruning]

/-! ## What a run has so far -/

/-- A later state of a run has the candidates and the visits of an earlier one, and
maybe more. -/
structure State.Extends (s s' : State σ) : Prop where
  boxes : s.boxes.toList <+: s'.boxes.toList
  visits : s.visits.toList <+: s'.visits.toList
  branchings_le : s.branchings ≤ s'.branchings

section Growth

variable {cs : List Constraint} {c : Config} {observe : Observer σ} {s s' s'' : State σ}

theorem State.Extends.refl (s : State σ) : s.Extends s :=
  ⟨List.prefix_rfl, List.prefix_rfl, Nat.le_refl _⟩

theorem State.Extends.trans (h : s.Extends s') (h' : s'.Extends s'') : s.Extends s'' :=
  ⟨h.boxes.trans h'.boxes, h.visits.trans h'.visits,
    Nat.le_trans h.branchings_le h'.branchings_le⟩

theorem State.Extends.size_le (h : s.Extends s') : s.boxes.size ≤ s'.boxes.size :=
  h.boxes.length_le

theorem extends_hear (rest : List Box) (b : Box) (event : Event) :
    s.Extends (s.hear observe rest b event) := by
  refine ⟨List.prefix_rfl, ?_, Nat.le_succ _⟩
  rw [visits_hear, Array.toList_push]
  exact List.prefix_append _ _

theorem extends_of_moves (h : Moves cs c observe s s') : s.Extends s' := by
  cases h with
  | pruned => exact extends_hear _ _ _
  | recorded =>
    refine (extends_hear _ _ _).trans ⟨?_, List.prefix_rfl, Nat.le_refl _⟩
    rw [State.record, Array.toList_push]
    exact List.prefix_append _ _
  | dropped => exact extends_hear _ _ _
  | split => exact (extends_hear _ _ _).trans ⟨List.prefix_rfl, List.prefix_rfl, Nat.le_refl _⟩
  | left => exact extends_hear _ _ _

/-- Candidates and visits are never taken back. -/
theorem extends_of_reaches (h : Reaches cs c observe s s') : s.Extends s' := by
  induction h with
  | refl => exact .refl s
  | tail _ hstep ih => exact ih.trans (extends_of_moves (moves_of_step hstep))

/-- A step stays within the limits. -/
theorem permits_of_moves (h : Moves cs c observe s s')
    (hs : c.Permits s.boxes.size s.branchings) : c.Permits s'.boxes.size s'.branchings := by
  cases h with
  | pruned _ hlimit => exact ⟨hs.candidates_le, Config.limitReached_eq_false_iff.1 hlimit⟩
  | recorded _ hlimit _ hroom =>
    refine ⟨?_, Config.limitReached_eq_false_iff.1 hlimit⟩
    rw [State.record, Array.size_push]
    exact Config.refuses_eq_false_iff.1 hroom
  | dropped _ hlimit => exact ⟨hs.candidates_le, Config.limitReached_eq_false_iff.1 hlimit⟩
  | split _ hlimit => exact ⟨hs.candidates_le, Config.limitReached_eq_false_iff.1 hlimit⟩
  | left _ hlimit => exact ⟨hs.candidates_le, Config.limitReached_eq_false_iff.1 hlimit⟩

/-- So does a run. -/
theorem permits_of_reaches (h : Reaches cs c observe s s')
    (hs : c.Permits s.boxes.size s.branchings) : c.Permits s'.boxes.size s'.branchings := by
  induction h with
  | refl => exact hs
  | tail _ hstep ih => exact permits_of_moves (moves_of_step hstep) ih

end Growth

/-! ## Runs without an observer under other limits -/

section Transfer

variable {cs : List Constraint} {c c' : Config} {s s' : State Unit}

/-- A step can be taken under other settings if they permit what it leads to. -/
theorem moves_of_permits (hagree : c.Agrees c') (h : Moves cs c Observer.silent s s')
    (hs' : c'.Permits s'.boxes.size s'.branchings) : Moves cs c' Observer.silent s s' := by
  have hlimit' : s'.branchings = s.branchings + 1 → c'.limitReached s.branchings = false := by
    intro hcount
    rw [Config.limitReached_eq_false_iff, ← hcount]
    exact hs'.visits_le
  cases h with
  | pruned hstack _ hverdict hreply =>
    rw [← classify_congr hagree] at hverdict
    exact .pruned hstack (hlimit' rfl) hverdict hreply
  | recorded hstack _ hverdict _ hreply =>
    rw [← classify_congr hagree] at hverdict
    refine .recorded hstack (hlimit' rfl) hverdict ?_ hreply
    -- The candidate is among those that are permitted.
    have hroom := hs'.candidates_le
    rw [State.record, Array.size_push] at hroom
    exact Config.refuses_eq_false_iff.2 hroom
  | dropped _ _ _ _ hreply => cases hreply
  | split hstack _ hverdict hreply hhalves =>
    rw [← classify_congr hagree] at hverdict
    rw [← hagree.order] at hhalves
    exact .split hstack (hlimit' rfl) hverdict hreply hhalves
  | left _ _ _ hreply => cases hreply

/-- A run is one under other settings too if they permit where it ends. -/
theorem reaches_of_permits (hagree : c.Agrees c') (h : Reaches cs c Observer.silent s s')
    (hs' : c'.Permits s'.boxes.size s'.branchings) : Reaches cs c' Observer.silent s s' := by
  induction h with
  | refl => exact .refl
  | tail _ hstep ih =>
    have hmoves := moves_of_step hstep
    have hgrowth := extends_of_moves hmoves
    have hbefore := hs'.mono hgrowth.size_le hgrowth.branchings_le
    exact (ih hbefore).tail (step_of_moves (moves_of_permits hagree hmoves hs'))

/-- What ends a search ends it under other settings too, if they have the same to say about
the next visit and have no room where there was none. -/
theorem ends_of_agrees {o : Outcome Unit} (hagree : c.Agrees c')
    (hlimit : s.stack ≠ [] → c'.limitReached s.branchings = c.limitReached s.branchings)
    (hroom : c.refuses s.boxes.size = true → c'.refuses s.boxes.size = true)
    (h : Ends cs c Observer.silent s o) : Ends cs c' Observer.silent s o := by
  have hnext : ∀ {b rest}, s.stack = b :: rest →
      c'.limitReached s.branchings = c.limitReached s.branchings := by
    intro b rest hstack
    apply hlimit
    rw [hstack]
    exact List.cons_ne_nil b rest
  cases h with
  | exhausted hstack => exact .exhausted hstack
  | limit hstack hreached => exact .limit hstack ((hnext hstack).trans hreached)
  | unmeasured hstack hfree hverdict =>
    rw [← classify_congr hagree] at hverdict
    exact .unmeasured hstack ((hnext hstack).trans hfree) hverdict
  | full hstack hfree hverdict hfull =>
    rw [← classify_congr hagree] at hverdict
    exact .full hstack ((hnext hstack).trans hfree) hverdict (hroom hfull)
  | stopped _ _ _ hreply => cases hreply
  | unsplit hstack hfree hverdict hreply hhalves =>
    rw [← classify_congr hagree] at hverdict
    rw [← hagree.order] at hhalves
    exact .unsplit hstack ((hnext hstack).trans hfree) hverdict hreply hhalves

end Transfer

end Search

end Paving
