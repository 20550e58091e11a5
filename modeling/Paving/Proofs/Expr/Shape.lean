import Paving.Constraint

/-!
# What a projection leaves of a box

Whatever the expression, the box and the target, a projection leaves a box of the same
dimension inside the one it was given, with all components empty or none, and its flag
says whether the box is non-empty. The part about the flag is carried by the three
ways in which a projection is put together (`flagged_meetTarget`, `flagged_inTurn`,
`flagged_projectVar`), so the whole tree follows by induction (`flagged_project`).

A projection also never keeps more than the one that knows the expression through its
values alone: where that one empties the box, the root of the tree already does
(`project_eq_toEmpty`). The two compare the target and the value in opposite order, and
emptiness of an intersection does not depend on the order (`isEmpty_inter_comm`).
-/

set_option autoImplicit false

namespace Paving

/-! ## Empty intersections -/

namespace Binary64

section Order

variable {a b : Binary64}

theorem not_nan_larger (ha : a.isNaN = false) (hb : b.isNaN = false) :
    (larger a b).isNaN = false :=
  (le_larger ha hb).1.2.1

theorem not_nan_smaller (ha : a.isNaN = false) (hb : b.isNaN = false) :
    (smaller a b).isNaN = false :=
  (smaller_le ha hb).1.1

theorem rank_larger (ha : a.isNaN = false) (hb : b.isNaN = false) :
    (larger a b).rank = max a.rank b.rank := by
  rw [larger]
  split
  case isTrue h =>
    have := h.2.2
    omega
  case isFalse h =>
    have := (Binary64.le_of_not_lt ha hb h).2.2
    omega

theorem rank_smaller (ha : a.isNaN = false) (hb : b.isNaN = false) :
    (smaller a b).rank = min a.rank b.rank := by
  rw [smaller]
  split
  case isTrue h =>
    have := h.2.2
    omega
  case isFalse h =>
    have := (Binary64.le_of_not_lt hb ha h).2.2
    omega

/-- Whether bounds make an interval depends on their ranks. -/
theorem admissibleBounds_iff_rank (ha : a.isNaN = false) (hb : b.isNaN = false) :
    AdmissibleBounds a b ↔ a.rank ≤ b.rank ∧ a.rank < posInf.rank ∧ negInf.rank < b.rank := by
  constructor
  · rintro ⟨hle, hlow, hhigh⟩
    exact ⟨hle.2.2, hlow.2.2, hhigh.2.2⟩
  · rintro ⟨hle, hlow, hhigh⟩
    exact ⟨⟨ha, hb, hle⟩, ⟨ha, by decide, hlow⟩, ⟨by decide, hb, hhigh⟩⟩

end Order

end Binary64

namespace Interval

open Binary64

/-- Admissible bounds are those of a non-empty interval. -/
theorem isEmpty_eq_false_of_admissible {x : Interval} (h : AdmissibleBounds x.lb x.ub) :
    x.isEmpty = false := by
  rw [← Bool.not_eq_true, isEmpty_iff]
  rintro ⟨-, hub⟩
  have hlt := h.2.2.2.2
  omega

theorem isEmpty_ofBounds_iff {lb ub : Binary64} :
    (ofBounds lb ub).isEmpty = true ↔ ¬ AdmissibleBounds lb ub := by
  rw [ofBounds]
  split
  case isTrue h => simp [isEmpty_eq_false_of_admissible (x := ⟨lb, ub, .inr h⟩) h, h]
  case isFalse h => simp [h]

/-- An interval is the empty one or has admissible bounds. -/
theorem eq_empty_or_admissible (x : Interval) :
    (x.isEmpty = true ∧ x = empty) ∨ (x.isEmpty = false ∧ AdmissibleBounds x.lb x.ub) := by
  obtain ⟨lb, ub, ⟨rfl, rfl⟩ | h⟩ := x
  · exact .inl ⟨isEmpty_empty, rfl⟩
  · exact .inr ⟨isEmpty_eq_false_of_admissible h, h⟩

/-- Whether two intervals have nothing in common does not depend on their order. -/
theorem isEmpty_inter_comm (x y : Interval) : (x.inter y).isEmpty = (y.inter x).isEmpty := by
  obtain ⟨hxl, hxu⟩ := x.bounds_not_nan
  obtain ⟨hyl, hyu⟩ := y.bounds_not_nan
  rw [inter, inter, Bool.or_comm]
  split
  · rfl
  · rw [Bool.eq_iff_iff, isEmpty_ofBounds_iff, isEmpty_ofBounds_iff,
      admissibleBounds_iff_rank (not_nan_larger hxl hyl) (not_nan_smaller hxu hyu),
      admissibleBounds_iff_rank (not_nan_larger hyl hxl) (not_nan_smaller hyu hxu),
      rank_larger hxl hyl, rank_larger hyl hxl, rank_smaller hxu hyu, rank_smaller hyu hxu,
      Int.max_comm, Int.min_comm]

/-- Only the empty interval lies in the empty interval. -/
theorem isEmpty_of_subset {x y : Interval} (h : x ⊆ y) (hy : y.isEmpty = true) :
    x.isEmpty = true := by
  rcases subset_iff.1 h with hx | ⟨hne, -, -⟩
  · exact hx
  · rw [hy] at hne
    cases hne

end Interval

/-! ## Boxes and flags -/

namespace Box

/-- All components of a box are empty when the box is, and none otherwise. -/
theorem isEmpty_of_mem_components {b : Box} {x : Interval} (hx : x ∈ b.components) :
    x.isEmpty = b.isEmpty :=
  b.uniform x hx _ (List.head_mem b.nonempty)

/-- A box has empty components only, or components with admissible bounds only. -/
theorem components_empty_or_admissible (b : Box) :
    (∀ x ∈ b.components, x = Interval.empty) ∨
      ∀ x ∈ b.components, AdmissibleBounds x.lb x.ub := by
  cases hb : b.isEmpty with
  | true =>
    left
    intro x hx
    rcases x.eq_empty_or_admissible with ⟨-, hempty⟩ | ⟨hne, -⟩
    · exact hempty
    · rw [isEmpty_of_mem_components hx, hb] at hne
      cases hne
  | false =>
    right
    intro x hx
    rcases x.eq_empty_or_admissible with ⟨hempty, -⟩ | ⟨-, hadmissible⟩
    · rw [isEmpty_of_mem_components hx, hb] at hempty
      cases hempty
    · exact hadmissible

theorem isEmpty_toEmpty (b : Box) : b.toEmpty.isEmpty = true := by
  have hmem := List.head_mem b.toEmpty.nonempty
  obtain ⟨y, -, hy⟩ := List.mem_map.1 hmem
  rw [isEmpty, ← hy]
  exact Interval.isEmpty_empty

/-- A box inside an empty box is empty. -/
theorem isEmpty_of_subset {a b : Box} (h : a ⊆ b) (hb : b.isEmpty = true) : a.isEmpty = true := by
  have hfirst : a.components[0]? = some (a.components.head a.nonempty) := by
    rw [← List.head?_eq_getElem?, List.head?_eq_some_head a.nonempty]
  have hsecond : b.components[0]? = some (b.components.head b.nonempty) := by
    rw [← List.head?_eq_getElem?, List.head?_eq_some_head b.nonempty]
  exact Interval.isEmpty_of_subset (h.2 0 _ _ hfirst hsecond) hb

/-- The flag says whether the narrowed box is non-empty. -/
def Flagged (narrowed : Box × Bool) : Prop :=
  narrowed.2 = !narrowed.1.isEmpty

theorem flagged_of_isEmpty {b : Box} (hb : b.isEmpty = true) : Flagged (b, false) := by
  rw [Flagged, hb]
  rfl

theorem flagged_of_not_isEmpty {b : Box} (hb : b.isEmpty = false) : Flagged (b, true) := by
  rw [Flagged, hb]
  rfl

end Box

namespace Expr

section Flags

variable {b : Box} {y own : Interval}

/-- A node passes on a box only if it is non-empty, and empties the others. -/
theorem flagged_meetTarget {descend : Interval → Box × Bool}
    (h : b.isEmpty = false → ∀ target, Box.Flagged (descend target)) :
    Box.Flagged (meetTarget b y own descend) := by
  rw [meetTarget]
  cases hb : b.isEmpty with
  | true => exact Box.flagged_of_isEmpty hb
  | false =>
    simp only [Bool.false_eq_true, if_false]
    split
    · exact Box.flagged_of_isEmpty b.isEmpty_toEmpty
    · exact h hb _

theorem flagged_inTurn {first : Box × Bool} {second : Box → Box × Bool}
    (hfirst : Box.Flagged first) (hsecond : ∀ left, Box.Flagged (second left)) :
    Box.Flagged (inTurn first second) := by
  rw [inTurn]
  split
  case isTrue => exact hsecond first.1
  case isFalse h =>
    have hempty : first.1.isEmpty = true := by
      rw [hfirst, Bool.not_eq_true, Bool.not_eq_false'] at h
      exact h
    exact Box.flagged_of_isEmpty hempty

theorem flagged_projectVar (axis : Nat) (hb : b.isEmpty = false) (target : Interval) :
    Box.Flagged (projectVar axis b target) := by
  rw [projectVar]
  split
  case isTrue => rfl
  -- A variable without a component leaves the box as it is.
  case isFalse => exact Box.flagged_of_not_isEmpty hb

end Flags

/-- The flag of a projection says whether the box is non-empty afterwards. -/
theorem flagged_project (e : Expr) (b : Box) (y : Interval) : Box.Flagged (e.project b y) := by
  induction e generalizing b y with
  | var axis => exact flagged_meetTarget fun hb target => flagged_projectVar axis hb target
  | const c => exact flagged_meetTarget fun hb _ => Box.flagged_of_not_isEmpty hb
  | neg e ih => exact flagged_meetTarget fun _ _ => ih b _
  | scale a e ih => exact flagged_meetTarget fun _ _ => ih b _
  | sqr e ih => exact flagged_meetTarget fun _ _ => ih b _
  | sqrt e ih => exact flagged_meetTarget fun _ _ => ih b _
  | add e₁ e₂ ih₁ ih₂ =>
    exact flagged_meetTarget fun _ _ => flagged_inTurn (ih₁ b _) fun left => ih₂ left _
  | sub e₁ e₂ ih₁ ih₂ =>
    exact flagged_meetTarget fun _ _ => flagged_inTurn (ih₁ b _) fun left => ih₂ left _

/-! ## Comparison with the values alone -/

/-- A target that misses the value of the expression leaves nothing of the box. -/
theorem project_eq_toEmpty {e : Expr} {b : Box} {y : Interval} (hb : b.isEmpty = false)
    (h : (y.inter (e.eval b)).isEmpty = true) : e.project b y = (b.toEmpty, false) := by
  have hmeet : ∀ descend, meetTarget b y (e.eval b) descend = (b.toEmpty, false) := by
    intro descend
    rw [meetTarget, hb, h]
    rfl
  cases e with
  | var axis => exact hmeet _
  | const c => exact hmeet _
  | neg e => exact hmeet _
  | add e₁ e₂ => exact hmeet _
  | sub e₁ e₂ => exact hmeet _
  | scale a e => exact hmeet _
  | sqr e => exact hmeet _
  | sqrt e => exact hmeet _

/-- A projection through the nodes keeps no more than one that knows the expression
through its values alone. -/
theorem project_subset_ofEval (e : Expr) (b : Box) (y : Interval) :
    (e.project b y).1 ⊆ ((InclusionFunction.ofEval e.eval).project b y).1 := by
  show (e.project b y).1 ⊆ (if b.isEmpty then (b, false)
    else if (e.eval b).intersects y then (b, true) else (b.toEmpty, false)).1
  cases hb : b.isEmpty with
  | true => exact e.project_subset b y
  | false =>
    cases hmeets : (e.eval b).intersects y with
    | true => exact e.project_subset b y
    | false =>
      have hmissed : (y.inter (e.eval b)).isEmpty = true := by
        rw [Interval.isEmpty_inter_comm]
        simpa [Interval.intersects] using hmeets
      rw [project_eq_toEmpty hb hmissed]
      exact Box.subset_refl _

theorem flagged_ofEval (eval : Box → Interval) (b : Box) (y : Interval) :
    Box.Flagged ((InclusionFunction.ofEval eval).project b y) := by
  show Box.Flagged (if b.isEmpty then (b, false)
    else if (eval b).intersects y then (b, true) else (b.toEmpty, false))
  cases hb : b.isEmpty with
  | true => exact Box.flagged_of_isEmpty hb
  | false =>
    cases (eval b).intersects y with
    | true => exact Box.flagged_of_not_isEmpty hb
    | false => exact Box.flagged_of_isEmpty b.isEmpty_toEmpty

/-- The shape of a projection, for every expression, box and target: it leaves a valid
box of the same dimension inside the one it was given, its flag says whether that box is
non-empty, an empty box stays empty, and what is left lies in what a projection by the
values of the expression alone would leave. -/
theorem project_shape (e : Expr) (b : Box) (y : Interval) :
    (e.project b y).1.dim = b.dim ∧
      ((∀ x ∈ (e.project b y).1.components, x = Interval.empty) ∨
        ∀ x ∈ (e.project b y).1.components, AdmissibleBounds x.lb x.ub) ∧
      (e.project b y).1 ⊆ b ∧
      ((e.project b y).2 = true ↔ (e.project b y).1.isEmpty = false) ∧
      (b.isEmpty = true → (e.project b y).1.isEmpty = true) ∧
      (e.project b y).1 ⊆ ((InclusionFunction.ofEval e.eval).project b y).1 ∧
      ((e.project b y).2 = true → ((InclusionFunction.ofEval e.eval).project b y).2 = true) := by
  have hsubset := e.project_subset b y
  have hflag := e.flagged_project b y
  have hcompared := e.project_subset_ofEval b y
  refine ⟨hsubset.1, Box.components_empty_or_admissible _, hsubset, ?_,
    Box.isEmpty_of_subset hsubset, hcompared, ?_⟩
  · rw [hflag, Bool.not_eq_true']
  · intro hkept
    rw [flagged_ofEval e.eval b y, Bool.not_eq_true', ← Bool.not_eq_true]
    intro hempty
    rw [hflag, Box.isEmpty_of_subset hcompared hempty] at hkept
    cases hkept

end Expr

end Paving
