import Paving.Proofs.Binary64.Magnitudes
import Paving.Proofs.Binary64.Tightness
import Paving.Proofs.Box.Points
import Paving.Proofs.Expr.Shape

/-!
# Exact widths, and where halves lie

A diameter is a width that was rounded up, so the exact width is never more
(`width_le_diam`), and it is the least number of which this is true
(`diam_le_of_width_le`). The largest diameter of a box bounds the exact widths of all its
components (`width_le_of_widestDiam`) and is the diameter of the one on its axis
(`exists_component_of_widestDiam`); a box has one if it is non-empty and bounded
(`exists_widestDiam`). The search for the best entry of a list answers with the place of
that entry (`getElem?_bestFrom`) and leaves none that is better (`not_better_bestFrom`),
whatever "better" means, as long as it is a strict order on the entries.

The halves of a bisected box lie in it (`bisectAxis_subset`), and those of a non-empty one
are not empty (`bisectAxis_not_isEmpty`).
-/

set_option autoImplicit false

namespace Paving

open Binary64

namespace Interval

/-! ## One interval -/

section Width

variable {x : Interval} {w : Binary64}

theorem diam_eq_ok (h : x.diam = .ok w) : x.isBounded = true ∧ w = Direction.up.sub x.ub x.lb := by
  rw [diam] at h
  split at h
  · cases h
  · split at h
    · cases h
    · rename_i hbounded
      cases h
      exact ⟨by simpa using hbounded, rfl⟩

theorem finite_of_isBounded (h : x.isBounded = true) :
    x.lb.isFinite = true ∧ x.ub.isFinite = true := by
  simp only [isBounded, Bool.and_eq_true] at h
  exact ⟨h.1.2, h.2⟩

/-- The exact width is at most the diameter. -/
theorem width_le_diam (h : x.diam = .ok w) :
    Direction.up.Bounds w (x.ub.toReal - x.lb.toReal) := by
  obtain ⟨hbounded, rfl⟩ := diam_eq_ok h
  obtain ⟨hlb, hub⟩ := finite_of_isBounded hbounded
  have hupper : Direction.up.Bounds x.ub x.ub.toReal :=
    (Direction.bounds_iff_side hub).2 (le_refl x.ub.toReal)
  have hlower : Direction.down.Bounds x.lb x.lb.toReal :=
    (Direction.bounds_iff_side hlb).2 (le_refl x.lb.toReal)
  exact Direction.bounds_sub hupper hlower (Rounding.not_misled_width x.lb_le_ub)

/-- The diameter is at most every number that the exact width does not exceed. -/
theorem diam_le_of_width_le (h : x.diam = .ok w) {v : Binary64} (hv : v.isFinite = true)
    (hwidth : x.ub.toReal - x.lb.toReal ≤ v.toReal) : w ≤ v := by
  have hnan := (width_le_diam h).1
  obtain ⟨hbounded, rfl⟩ := diam_eq_ok h
  obtain ⟨hlb, hub⟩ := finite_of_isBounded hbounded
  refine ⟨hnan, not_nan_of_finite hv, ?_⟩
  have hbounds : Direction.up.Bounds v (x.ub.toReal + (-x.lb).toReal) := by
    rw [Direction.bounds_iff_side hv, toReal_neg, ← sub_eq_add_neg]
    exact hwidth
  exact Direction.side_add hub ((isFinite_neg x.lb).trans hlb) hbounds

theorem diam_of_isBounded (h : x.isBounded = true) :
    x.diam = .ok (Direction.up.sub x.ub x.lb) := by
  have hne : x.isEmpty = false := by
    simp only [isBounded, Bool.and_eq_true, Bool.not_eq_true'] at h
    exact h.1.1
  rw [diam, hne, h]
  rfl

end Width

/-- The halves of an interval lie in it. -/
theorem bisectAt_subset {x lower upper : Interval} {point : Binary64}
    (h : x.bisectAt point = .ok (lower, upper)) : lower ⊆ x ∧ upper ⊆ x := by
  obtain ⟨hl, hu⟩ := x.bounds_not_nan
  obtain ⟨hne, ⟨hlow, hhigh⟩, ⟨h₁, h₂⟩, h₃, h₄⟩ := bisectAt_eq_ok h
  constructor
  · refine subset_iff.2 (.inr ⟨hne, ?_, ?_⟩)
    · rw [h₁]
      exact ⟨hl, hl, Int.le_refl _⟩
    · rw [h₂]
      exact Binary64.le_of_lt hhigh
  · refine subset_iff.2 (.inr ⟨hne, ?_, ?_⟩)
    · rw [h₃]
      exact Binary64.le_of_lt hlow
    · rw [h₄]
      exact ⟨hu, hu, Int.le_refl _⟩

/-- The halves of an interval are not empty. -/
theorem bisectAt_not_isEmpty {x lower upper : Interval} {point : Binary64}
    (h : x.bisectAt point = .ok (lower, upper)) :
    lower.isEmpty = false ∧ upper.isEmpty = false := by
  obtain ⟨-, hinside, ⟨h₁, h₂⟩, h₃, h₄⟩ := bisectAt_eq_ok h
  constructor
  · apply isEmpty_eq_false_of_admissible
    rw [h₁, h₂]
    exact admissible_lower hinside
  · apply isEmpty_eq_false_of_admissible
    rw [h₃, h₄]
    exact admissible_upper hinside

end Interval

namespace Box

/-! ## The best entry of a list -/

section Best

/-- No entry is better than the one that is found, if "better" is asymmetric and its
negation is transitive on the entries. -/
theorem not_better_bestFrom (better : Binary64 → Binary64 → Bool) (entry : Binary64 → Prop)
    (hasymm : ∀ a b, entry a → entry b → better a b = true → better b a = false)
    (htrans : ∀ a b c, entry a → entry b → entry c → better a b = false → better b c = false →
      better a c = false)
    (best : Nat × Binary64) (i : Nat) {ds : List Binary64} (hbest : entry best.2)
    (hds : ∀ d ∈ ds, entry d) :
    entry (bestFrom better best i ds).2 ∧
      ∀ d ∈ best.2 :: ds, better d (bestFrom better best i ds).2 = false := by
  induction ds generalizing best i with
  | nil =>
    refine ⟨hbest, ?_⟩
    intro d hd
    rw [List.mem_singleton.1 hd, bestFrom, ← Bool.not_eq_true]
    intro hself
    rw [hasymm _ _ hbest hbest hself] at hself
    cases hself
  | cons d ds ih =>
    rw [List.forall_mem_cons] at hds
    rw [bestFrom]
    -- The better one of the two goes on; the other one is not better than it.
    cases hd : better d best.2 with
    | true =>
      obtain ⟨hentry, hrest⟩ := ih (i, d) (i + 1) hds.1 hds.2
      rw [List.forall_mem_cons] at hrest
      refine ⟨hentry, ?_⟩
      rw [List.forall_mem_cons, List.forall_mem_cons]
      exact ⟨htrans _ _ _ hbest hds.1 hentry (hasymm _ _ hds.1 hbest hd) hrest.1, hrest⟩
    | false =>
      obtain ⟨hentry, hrest⟩ := ih best (i + 1) hbest hds.2
      rw [List.forall_mem_cons] at hrest
      refine ⟨hentry, ?_⟩
      rw [List.forall_mem_cons, List.forall_mem_cons]
      exact ⟨hrest.1, htrans _ _ _ hds.1 hbest hentry hd hrest.1, hrest.2⟩

/-- The place that is answered holds the entry that is found. -/
theorem getElem?_bestFrom (better : Binary64 → Binary64 → Bool) {entries ds : List Binary64}
    (best : Nat × Binary64) (i : Nat) (hbest : entries[best.1]? = some best.2)
    (hds : entries.drop i = ds) :
    entries[(bestFrom better best i ds).1]? = some (bestFrom better best i ds).2 := by
  induction ds generalizing best i with
  | nil => exact hbest
  | cons d ds ih =>
    have hentry : entries[i]? = some d := by
      rw [← List.head?_drop, hds, List.head?_cons]
    have hrest : entries.drop (i + 1) = ds := by
      rw [← List.tail_drop, hds, List.tail_cons]
    rw [bestFrom]
    apply ih _ _ _ hrest
    split
    · exact hentry
    · exact hbest

/-- The widest entry is at least as large as every other one. -/
theorem le_bestFrom_widest (best : Nat × Binary64) (i : Nat) {ds : List Binary64}
    (hds : ∀ d ∈ best.2 :: ds, d.isNaN = false) :
    ∀ d ∈ best.2 :: ds,
      d ≤ (bestFrom (fun candidate best => decide (best < candidate)) best i ds).2 := by
  obtain ⟨hbest, hrest⟩ := List.forall_mem_cons.1 hds
  have hfound := not_better_bestFrom
    (fun candidate best => decide (best < candidate)) (fun d => d.isNaN = false)
    ?_ ?_ best i hbest hrest
  · intro d hd
    exact Binary64.le_of_not_lt hfound.1 (hds d hd) (of_decide_eq_false (hfound.2 d hd))
  · intro a b ha hb h
    simp only [decide_eq_true_eq, decide_eq_false_iff_not, Binary64.lt_iff] at h ⊢
    omega
  · intro a b c ha hb hc hab hbc
    simp only [decide_eq_false_iff_not, Binary64.lt_iff, ha, hb, hc, true_and] at hab hbc ⊢
    omega

end Best

/-! ## Diameters of a box -/

/-- A traversal succeeds if every entry does. -/
theorem mapM_eq_ok_iff {α β ε : Type} {f : α → Except ε β} {xs : List α} {ys : List β} :
    xs.mapM f = .ok ys ↔ xs.map f = ys.map .ok := by
  induction xs generalizing ys with
  | nil => cases ys <;> simp [pure, Except.pure]
  | cons x xs ih =>
    rw [List.mapM_cons, List.map_cons]
    cases ys with
    | nil =>
      cases f x with
      | error e => simp [bind, Except.bind]
      | ok y => cases xs.mapM f <;> simp [bind, Except.bind, pure, Except.pure]
    | cons z zs =>
      rw [List.map_cons, List.cons.injEq, ← ih]
      cases f x with
      | error e => simp [bind, Except.bind]
      | ok y => cases xs.mapM f <;> simp [bind, Except.bind, pure, Except.pure]

section Diameters

variable {b : Box} {axis : Nat} {w : Binary64}

theorem diameters_eq_ok {ds : List Binary64} (h : b.diameters = .ok ds) :
    b.isEmpty = false ∧ b.components.map Interval.diam = ds.map .ok := by
  rw [diameters] at h
  split at h
  case isTrue => cases h
  case isFalse hne =>
    refine ⟨Bool.eq_false_iff.2 hne, mapM_eq_ok_iff.1 ?_⟩
    cases hdiams : b.components.mapM Interval.diam with
    | error e =>
      rw [hdiams] at h
      cases h
    | ok found =>
      rw [hdiams] at h
      cases h
      rfl

/-- The largest diameter belongs to a non-empty box, and no component has a larger
one. -/
theorem diam_le_of_widestDiam (h : b.widestDiam = .ok (axis, w)) :
    b.isEmpty = false ∧ ∀ x ∈ b.components, ∃ d, x.diam = .ok d ∧ d ≤ w := by
  rw [widestDiam, extremeDiam] at h
  cases hds : b.diameters with
  | error e =>
    rw [hds] at h
    cases h
  | ok ds =>
    obtain ⟨hne, hdiams⟩ := diameters_eq_ok hds
    have hnumber : ∀ d ∈ ds, d.isNaN = false := by
      intro d hd
      have hok : Except.ok d ∈ b.components.map Interval.diam := by
        rw [hdiams]
        exact List.mem_map_of_mem hd
      obtain ⟨x, -, hx⟩ := List.mem_map.1 hok
      exact (Interval.width_le_diam hx).1
    rw [hds] at h
    refine ⟨hne, ?_⟩
    intro x hx
    have hok : x.diam ∈ ds.map Except.ok := by
      rw [← hdiams]
      exact List.mem_map_of_mem hx
    obtain ⟨d, hd, hxd⟩ := List.mem_map.1 hok
    refine ⟨d, hxd.symm, ?_⟩
    cases ds with
    | nil => cases hd
    | cons first rest =>
      have hbest : bestFrom _ (0, first) 1 rest = (axis, w) := Except.ok.inj h
      have hle := le_bestFrom_widest (0, first) 1 hnumber d hd
      rwa [hbest] at hle

/-- The largest diameter is that of the component on its axis. -/
theorem exists_component_of_widestDiam (h : b.widestDiam = .ok (axis, w)) :
    ∃ x, b.components[axis]? = some x ∧ x.diam = .ok w := by
  rw [widestDiam, extremeDiam] at h
  cases hds : b.diameters with
  | error e =>
    rw [hds] at h
    cases h
  | ok ds =>
    obtain ⟨-, hdiams⟩ := diameters_eq_ok hds
    rw [hds] at h
    cases ds with
    | nil => cases h
    | cons first rest =>
      have hbest : bestFrom _ (0, first) 1 rest = (axis, w) := Except.ok.inj h
      have hrest : (first :: rest).drop 1 = rest := rfl
      have hentry := getElem?_bestFrom (fun candidate best => decide (best < candidate))
        (0, first) 1 rfl hrest
      rw [hbest] at hentry
      have hok : (b.components.map Interval.diam)[axis]? = some (.ok w) := by
        rw [hdiams, List.getElem?_map, hentry]
        rfl
      rw [List.getElem?_map, Option.map_eq_some_iff] at hok
      exact hok

/-- A non-empty box with bounded components has a largest diameter. -/
theorem exists_widestDiam (hne : b.isEmpty = false)
    (hbounded : ∀ x ∈ b.components, x.isBounded = true) :
    ∃ axis w, b.widestDiam = .ok (axis, w) := by
  have hmap : b.components.map Interval.diam =
      (b.components.map fun x => Direction.up.sub x.ub x.lb).map .ok := by
    rw [List.map_map]
    apply List.map_congr_left
    intro x hx
    exact Interval.diam_of_isBounded (hbounded x hx)
  have hds : b.diameters = .ok (b.components.map fun x => Direction.up.sub x.ub x.lb) := by
    rw [diameters, hne, if_neg Bool.false_ne_true, mapM_eq_ok_iff.2 hmap]
    rfl
  rw [widestDiam, extremeDiam, hds]
  cases hcomponents : b.components with
  | nil => exact absurd hcomponents b.nonempty
  | cons x xs => exact ⟨_, _, rfl⟩

/-- A box whose largest diameter is within a finite tolerance has bounded components,
none of which is wider than the tolerance. -/
theorem width_le_of_widestDiam {eps : Binary64} (h : b.widestDiam = .ok (axis, w))
    (hw : w ≤ eps) (heps : eps.isFinite = true) :
    ∀ x ∈ b.components, x.isBounded = true ∧ x.ub.toReal - x.lb.toReal ≤ eps.toReal := by
  intro x hx
  obtain ⟨d, hd, hdw⟩ := (diam_le_of_widestDiam h).2 x hx
  refine ⟨(Interval.diam_eq_ok hd).1, ?_⟩
  have hwidth : ((x.ub.toReal - x.lb.toReal : ℝ) : EReal) ≤ eps.value :=
    calc ((x.ub.toReal - x.lb.toReal : ℝ) : EReal)
        ≤ d.value := (Interval.width_le_diam hd).2
      _ ≤ w.value := Binary64.value_le_value hdw
      _ ≤ eps.value := Binary64.value_le_value hw
  rwa [Binary64.value_of_finite heps, EReal.coe_le_coe_iff] at hwidth

end Diameters

/-! ## Halves -/

section Halves

variable {b lower upper : Box} {axis : Nat}

theorem replace_subset {x y : Interval} (hx : b.components[axis]? = some x) (hyx : y ⊆ x) :
    b.replace axis y ⊆ b := by
  refine ⟨by rw [dim, replace, length_ofComponents, List.length_set, dim], ?_⟩
  intro i u v hu hv
  by_cases hi : axis = i
  · subst hi
    rw [hx] at hv
    cases hv
    have hlt := (List.getElem?_eq_some_iff.1 hx).1
    exact Interval.subset_trans (ofComponents_subset _ hu (List.getElem?_set_self hlt)) hyx
  · exact ofComponents_subset _ hu (by rw [List.getElem?_set_ne hi, hv])

/-- The halves of a box lie in it. -/
theorem bisectAxis_subset (h : b.bisectAxis axis = .ok (lower, upper)) :
    lower ⊆ b ∧ upper ⊆ b := by
  obtain ⟨x, point, xl, xu, hx, hb, rfl, rfl⟩ := bisectAxis_eq_ok h
  obtain ⟨hlower, hupper⟩ := Interval.bisectAt_subset hb
  exact ⟨replace_subset hx hlower, replace_subset hx hupper⟩

/-- A non-empty component in place of another one leaves a non-empty box non-empty. -/
theorem replace_not_isEmpty (hb : b.isEmpty = false) {x : Interval} (hx : x.isEmpty = false) :
    (b.replace axis x).isEmpty = false := by
  have hnone : ¬ (b.components.set axis x).any Interval.isEmpty = true := by
    rw [List.any_eq_true]
    rintro ⟨y, hy, hempty⟩
    rcases List.mem_or_eq_of_mem_set hy with hold | rfl
    · rw [isEmpty_of_mem_components hold, hb] at hempty
      cases hempty
    · rw [hx] at hempty
      cases hempty
  have hall : ∀ y ∈ (b.replace axis x).components, y.isEmpty = false := by
    rw [replace, ofComponents, dif_neg hnone]
    simpa using hnone
  exact hall _ (List.head_mem _)

/-- The halves of a non-empty box are not empty. -/
theorem bisectAxis_not_isEmpty (hb : b.isEmpty = false)
    (h : b.bisectAxis axis = .ok (lower, upper)) :
    lower.isEmpty = false ∧ upper.isEmpty = false := by
  obtain ⟨x, point, xl, xu, -, hparts, rfl, rfl⟩ := bisectAxis_eq_ok h
  obtain ⟨hlower, hupper⟩ := Interval.bisectAt_not_isEmpty hparts
  exact ⟨replace_not_isEmpty hb hlower, replace_not_isEmpty hb hupper⟩

end Halves

end Box

end Paving
