import Paving.Proofs.Box.Measure
import Paving.Proofs.Interval.Bisection
import Paving.Proofs.Interval.Emptiness

/-!
# What boxes are made of

`ofComponents` empties all components as soon as one is empty. Where a call computes components
all at once, there is nothing to empty: equal copies, the hulls of the components of two
non-empty boxes, midpoints and halves make boxes of exactly these components
(`components_filled`, `components_hull`, `components_mid`, `components_bisectAt`). Where a call
changes one component, this component alone decides (`components_replace`). An intersection can
empty components, and is then the one empty box of its dimension (`eq_of_isEmpty`).
-/

set_option autoImplicit false

namespace Paving

/-! ## Calls that succeed or fail -/

section Calls

variable {ε α β : Type}

theorem bind_eq_ok {m : Except ε α} {f : α → Except ε β} {r : β} (h : m >>= f = .ok r) :
    ∃ a, m = .ok a ∧ f a = .ok r := by
  cases m with
  | error e => cases h
  | ok a => exact ⟨a, rfl, h⟩

theorem map_eq_ok {m : Except ε α} {f : α → β} {r : β} (h : m.map f = .ok r) :
    ∃ a, m = .ok a ∧ f a = r := by
  cases m with
  | error e => cases h
  | ok a => exact ⟨a, rfl, Except.ok.inj h⟩

theorem map_eq_error_iff {m : Except ε α} {f : α → β} {e : ε} :
    m.map f = .error e ↔ m = .error e := by
  cases m <;> simp [Except.map]

theorem BoxError.lift_eq_ok {m : Except IntervalError α} {r : α} (h : lift m = .ok r) :
    m = .ok r := by
  cases m with
  | error e => cases h
  | ok a =>
    cases h
    rfl

end Calls

namespace Interval

open Binary64

/-- A hull is empty only if both operands are. -/
theorem isEmpty_hull (x y : Interval) : (x.hull y).isEmpty = (x.isEmpty && y.isEmpty) := by
  cases hx : x.isEmpty with
  | true =>
    rw [hull, if_pos hx]
    rfl
  | false =>
    obtain ⟨v, -, hv⟩ := exists_number hx
    exact not_isEmpty_of_mem (mem_hull_left hv)

/-- A number that is neither infinity is finite. -/
theorem isFinite_of_rank_ne {v : Binary64} (hv : v.isNaN = false) (hneg : v.rank ≠ negInf.rank)
    (hpos : v.rank ≠ posInf.rank) : v.isFinite = true := by
  refine (finite_or_infinite hv).resolve_right fun hinfinite => ?_
  have hrank := isInfinite_iff_rank.1 hinfinite
  rw [rank_negInf] at hneg
  rw [rank_posInf] at hpos
  omega

/-- A midpoint is a finite number. -/
theorem isFinite_of_mid {x : Interval} {m : Binary64} (h : x.mid = .ok m) :
    m.isFinite = true := by
  rw [mid] at h
  split at h
  case isTrue => cases h
  case isFalse hne =>
    obtain ⟨hle, hlow, hhigh⟩ := admissible_of_not_isEmpty (Bool.eq_false_iff.2 hne)
    split at h
    · cases h
      decide
    · split at h
      · cases h
      · cases h
        decide
    · split at h
      · cases h
      · cases h
        decide
    · -- Neither bound is infinite on its own side, so both are finite.
      rename_i hlb hub
      cases h
      have hlower : x.lb.rank ≠ negInf.rank := fun heq =>
        Bool.eq_false_iff.1 hlb (Binary64.beq_iff.2 ⟨hle.1, by decide, heq⟩)
      have hupper : x.ub.rank ≠ posInf.rank := fun heq =>
        Bool.eq_false_iff.1 hub (Binary64.beq_iff.2 ⟨hle.2.1, by decide, heq⟩)
      exact isFinite_midpoint (isFinite_of_rank_ne hle.1 hlower hlow.2.2.ne)
        (isFinite_of_rank_ne hle.2.1 hhigh.2.2.ne' hupper)

/-- The point at a finite number is not empty. -/
theorem point_of_isFinite {m : Binary64} (hm : m.isFinite = true) :
    point m = .ok (ofBounds m m) ∧ (ofBounds m m).isEmpty = false := by
  have hnan := not_nan_of_finite hm
  have hnot : ¬ m < m := Binary64.lt_irrefl m
  refine ⟨?_, not_isEmpty_of_mem (toReal_mem_ofBounds hm)⟩
  rw [point, Interval.of, hnan, Bool.or_self, if_neg Bool.false_ne_true, if_neg hnot]

end Interval

namespace Box

/-! ## Components -/

section Components

variable {a b r : Box} {xs : List Interval}

theorem components_ofComponents (hne : xs ≠ []) (h : ∀ x ∈ xs, x.isEmpty = false) :
    (ofComponents xs hne).components = xs := by
  have hnone : ¬ xs.any Interval.isEmpty = true := by
    rw [List.any_eq_true]
    rintro ⟨x, hx, hempty⟩
    rw [h x hx] at hempty
    cases hempty
  rw [ofComponents, dif_neg hnone]

theorem ofIntervals_eq_ok (h : ofIntervals xs = .ok b) :
    ∃ hne : xs ≠ [], b = ofComponents xs hne := by
  rw [ofIntervals] at h
  split at h
  case isTrue => cases h
  case isFalse hne =>
    cases h
    exact ⟨hne, rfl⟩

theorem dim_of_ofIntervals (h : ofIntervals xs = .ok b) : b.dim = xs.length := by
  obtain ⟨hne, rfl⟩ := ofIntervals_eq_ok h
  exact length_ofComponents xs hne

theorem components_of_ofIntervals (h : ofIntervals xs = .ok b)
    (hnone : ∀ x ∈ xs, x.isEmpty = false) : b.components = xs := by
  obtain ⟨hne, rfl⟩ := ofIntervals_eq_ok h
  exact components_ofComponents hne hnone

theorem dim_replace (b : Box) (axis : Nat) (x : Interval) : (b.replace axis x).dim = b.dim := by
  rw [dim, replace, length_ofComponents, List.length_set]
  rfl

theorem one_le_dim (b : Box) : 1 ≤ b.dim :=
  List.length_pos_iff.2 b.nonempty

theorem checkDim_eq_ok {found : Nat} (h : b.checkDim found = .ok ()) : found = b.dim := by
  rw [checkDim] at h
  split at h
  case isTrue heq => exact heq
  case isFalse => cases h

theorem get_eq_ok {axis : Nat} {x : Interval} (h : b.get axis = .ok x) :
    b.components[axis]? = some x := by
  rw [get] at h
  split at h
  case h_1 hx =>
    cases h
    exact hx
  case h_2 => cases h

/-- Equal copies are all empty or all not, so nothing is restored. -/
theorem components_filled {n : Nat} {x : Interval} (h : filled n x = .ok b) :
    b.components = List.replicate n x := by
  cases hx : x.isEmpty with
  | false =>
    refine components_of_ofIntervals h fun y hy => ?_
    rw [List.eq_of_mem_replicate hy]
    exact hx
  | true =>
    obtain ⟨hne, rfl⟩ := ofIntervals_eq_ok h
    have hempty : x = Interval.empty := Interval.eq_empty_iff.2 hx
    rw [ofComponents]
    split
    · show (List.replicate n x).map (fun _ => Interval.empty) = List.replicate n x
      rw [List.map_replicate, hempty]
    · rfl

/-- An intersection is made of boxes of one dimension, and lies in the first. -/
theorem inter_subset {met : Box × Bool} (h : a.inter b = .ok met) : met.1 ⊆ a := by
  obtain ⟨_, hdim, h⟩ := bind_eq_ok h
  obtain ⟨found, hfound, h⟩ := bind_eq_ok h
  cases h
  have hlength : b.components.length = a.components.length := checkDim_eq_ok hdim
  obtain ⟨hne, rfl⟩ := ofIntervals_eq_ok hfound
  refine ⟨?_, ?_⟩
  · show (ofComponents _ hne).components.length = a.components.length
    rw [length_ofComponents, List.length_zipWith, hlength, Nat.min_self]
  · intro i x y hx hy
    have hi : i < b.components.length := by
      rw [hlength]
      exact (List.getElem?_eq_some_iff.1 hy).1
    have hzip : (List.zipWith Interval.inter a.components b.components)[i]? =
        some (y.inter b.components[i]) := by
      rw [List.getElem?_zipWith, hy, List.getElem?_eq_getElem hi]
    exact Interval.subset_trans (ofComponents_subset hne hx hzip)
      (Interval.inter_subset_left y _)

/-- The hull with an empty box is the other box, and otherwise it is made of the hulls of the
components, none of which is empty. -/
theorem components_hull (h : a.hull b = .ok r) : b.dim = a.dim ∧
    (a.isEmpty = true ∧ r = b ∨ b.isEmpty = true ∧ r = a ∨
      r.components = List.zipWith Interval.hull a.components b.components) := by
  obtain ⟨_, hdim, h⟩ := bind_eq_ok h
  refine ⟨checkDim_eq_ok hdim, ?_⟩
  cases ha : a.isEmpty with
  | true =>
    rw [ha] at h
    cases h
    exact .inl ⟨rfl, rfl⟩
  | false =>
    cases hb : b.isEmpty with
    | true =>
      rw [ha, hb] at h
      cases h
      exact .inr (.inl ⟨rfl, rfl⟩)
    | false =>
      rw [ha, hb] at h
      refine .inr (.inr (components_of_ofIntervals h fun z hz => ?_))
      obtain ⟨i, hi, rfl⟩ := List.getElem_of_mem hz
      rw [List.length_zipWith] at hi
      rw [List.getElem_zipWith, Interval.isEmpty_hull,
        isEmpty_of_mem_components (List.getElem_mem (by omega)), ha, Bool.false_and]

/-- Midpoints that are all defined make points, none of which is empty. -/
theorem centres_eq_ok {xs ys : List Interval}
    (h : xs.map (fun x => x.mid >>= Interval.point) = ys.map .ok) :
    ∃ ms : List Binary64, xs.map Interval.mid = ms.map .ok ∧
      ys = ms.map (fun m => Interval.ofBounds m m) ∧ ∀ y ∈ ys, y.isEmpty = false := by
  induction xs generalizing ys with
  | nil =>
    rw [List.map_nil, eq_comm, List.map_eq_nil_iff] at h
    subst h
    exact ⟨[], rfl, rfl, List.forall_mem_nil _⟩
  | cons x xs ih =>
    cases ys with
    | nil => cases h
    | cons y ys =>
      rw [List.map_cons, List.map_cons, List.cons.injEq] at h
      obtain ⟨hfirst, hrest⟩ := h
      obtain ⟨ms, hms, rfl, hnone⟩ := ih hrest
      obtain ⟨m, hm, hy⟩ := bind_eq_ok hfirst
      obtain ⟨hpoint, hne⟩ := Interval.point_of_isFinite (Interval.isFinite_of_mid hm)
      rw [hpoint] at hy
      cases hy
      refine ⟨m :: ms, ?_, rfl, List.forall_mem_cons.2 ⟨hne, hnone⟩⟩
      rw [List.map_cons, List.map_cons, hm, hms]

/-- The box of midpoints is made of the points at the midpoints of the components. -/
theorem components_mid (h : b.mid = .ok r) :
    ∃ ms : List Binary64, b.components.map Interval.mid = ms.map .ok ∧
      r.components = ms.map fun m => Interval.ofBounds m m := by
  obtain ⟨ys, hys, h⟩ := bind_eq_ok h
  obtain ⟨ms, hms, rfl, hnone⟩ := centres_eq_ok (mapM_eq_ok_iff.1 (BoxError.lift_eq_ok hys))
  exact ⟨ms, hms, components_of_ofIntervals h hnone⟩

/-- Whether a changed component is empty decides about the whole box, since no other one is. -/
theorem components_replace {axis : Nat} {x : Interval} (hb : b.isEmpty = false)
    (haxis : axis < b.dim) : (b.replace axis x).components =
      if x.isEmpty then b.components.map fun _ => Interval.empty
      else b.components.set axis x := by
  cases hx : x.isEmpty with
  | false =>
    refine components_ofComponents _ fun y hy => ?_
    rcases List.mem_or_eq_of_mem_set hy with hold | rfl
    · rw [isEmpty_of_mem_components hold, hb]
    · exact hx
  | true =>
    have hany : (b.components.set axis x).any Interval.isEmpty = true :=
      List.any_eq_true.2 ⟨x, List.mem_set haxis x, hx⟩
    rw [replace, ofComponents, dif_pos hany, if_pos rfl]
    show (b.components.set axis x).map (fun _ => Interval.empty) = _
    rw [List.map_const', List.map_const', List.length_set]

theorem set_eq_ok {axis : Nat} {x : Interval} (h : b.set axis x = .ok r) :
    b.isEmpty = true ∧ r = b ∨
      b.isEmpty = false ∧ axis < b.dim ∧ r = b.replace axis x := by
  rw [set] at h
  split at h
  case isTrue hb =>
    cases h
    exact .inl ⟨hb, rfl⟩
  case isFalse hb =>
    split at h
    case isTrue haxis =>
      cases h
      exact .inr ⟨Bool.eq_false_iff.2 hb, haxis, rfl⟩
    case isFalse => cases h

theorem interAxis_eq_ok {axis : Nat} {x : Interval} {met : Box × Bool}
    (h : b.interAxis axis x = .ok met) :
    b.isEmpty = true ∧ met.1 = b ∨
      b.isEmpty = false ∧ axis < b.dim ∧ met.1 = b.narrow axis x := by
  rw [interAxis] at h
  split at h
  case isTrue hb =>
    cases h
    exact .inl ⟨hb, rfl⟩
  case isFalse hb =>
    split at h
    case isTrue haxis =>
      cases h
      exact .inr ⟨Bool.eq_false_iff.2 hb, haxis, rfl⟩
    case isFalse => cases h

theorem narrow_eq_replace {axis : Nat} {own : Interval} (x : Interval)
    (hown : b.components[axis]? = some own) : b.narrow axis x = b.replace axis (own.inter x) := by
  have hmodify : b.components.modify axis (·.inter x) = b.components.set axis (own.inter x) := by
    rw [List.modify_eq_set_getElem?, hown]
    rfl
  simp only [narrow, replace, hmodify]

/-- The halves have the halves of one component in its place. -/
theorem components_bisectAt {axis : Nat} {point : Binary64} {lower upper : Box}
    (h : b.bisectAt axis point = .ok (lower, upper)) :
    ∃ x xl xu, b.components[axis]? = some x ∧ x.bisectAt point = .ok (xl, xu) ∧
      lower.components = b.components.set axis xl ∧
      upper.components = b.components.set axis xu := by
  obtain ⟨x, hget, h⟩ := bind_eq_ok h
  obtain ⟨⟨xl, xu⟩, hlift, h⟩ := bind_eq_ok h
  cases h
  have hx := get_eq_ok hget
  have hparts := BoxError.lift_eq_ok hlift
  obtain ⟨haxis, -⟩ := List.getElem?_eq_some_iff.1 hx
  -- The component that is split is not empty, so no component is, and neither are its halves.
  have hb : b.isEmpty = false := by
    rw [← isEmpty_of_mem_components (List.mem_of_getElem? hx)]
    exact (Interval.bisectAt_eq_ok hparts).1
  obtain ⟨hlower, hupper⟩ := Interval.bisectAt_not_isEmpty hparts
  refine ⟨x, xl, xu, hx, hparts, ?_, ?_⟩
  · rw [components_replace hb haxis, hlower, if_neg Bool.false_ne_true]
  · rw [components_replace hb haxis, hupper, if_neg Bool.false_ne_true]

theorem bisectAt_of_bisectAxis {axis : Nat} {halves : Box × Box}
    (h : b.bisectAxis axis = .ok halves) : ∃ point, b.bisectAt axis point = .ok halves := by
  obtain ⟨x, -, h⟩ := bind_eq_ok h
  obtain ⟨point, -, h⟩ := bind_eq_ok h
  exact ⟨point, h⟩

theorem bisectAt_of_bisect {halves : Box × Box} (h : b.bisect = .ok halves) :
    ∃ axis point, b.bisectAt axis point = .ok halves := by
  obtain ⟨axis, -, h⟩ := bind_eq_ok h
  exact ⟨axis, bisectAt_of_bisectAxis h⟩

/-! ## Combining boxes -/

theorem ext_components (h : a.components = b.components) : a = b := by
  cases a
  cases b
  cases h
  rfl

/-- There is one empty box of each dimension. -/
theorem eq_of_isEmpty (hdim : a.dim = b.dim) (ha : a.isEmpty = true) (hb : b.isEmpty = true) :
    a = b := by
  refine ext_components (List.ext_getElem hdim fun i hi hi' => ?_)
  have hx := (isEmpty_of_mem_components (List.getElem_mem hi)).trans ha
  have hy := (isEmpty_of_mem_components (List.getElem_mem hi')).trans hb
  rw [Interval.eq_empty_iff.2 hx, Interval.eq_empty_iff.2 hy]

theorem isEmpty_ofComponents {xs : List Interval} (hne : xs ≠ []) :
    (ofComponents xs hne).isEmpty = xs.any Interval.isEmpty := by
  unfold isEmpty ofComponents
  split
  case isTrue hany => simp [hany]
  case isFalse hany =>
    have hnone : ∀ x ∈ xs, x.isEmpty = false := by simpa using hany
    exact (hnone _ (List.head_mem hne)).trans (Bool.eq_false_iff.2 hany).symm

theorem isEmpty_replace {axis : Nat} (x : Interval) (hb : b.isEmpty = false)
    (haxis : axis < b.dim) : (b.replace axis x).isEmpty = x.isEmpty := by
  have hothers : ∀ y ∈ b.components, y.isEmpty = false := fun y hy =>
    (isEmpty_of_mem_components hy).trans hb
  rw [replace, isEmpty_ofComponents, Bool.eq_iff_iff, List.any_eq_true]
  constructor
  · rintro ⟨y, hy, hempty⟩
    rcases List.mem_or_eq_of_mem_set hy with hold | rfl
    · rw [hothers y hold] at hempty
      cases hempty
    · exact hempty
  · intro hempty
    exact ⟨x, List.mem_set haxis x, hempty⟩

theorem zipWith_components_ne_nil (op : Interval → Interval → Interval) (a b : Box) :
    List.zipWith op a.components b.components ≠ [] := by
  rw [ne_eq, List.zipWith_eq_nil_iff, not_or]
  exact ⟨a.nonempty, b.nonempty⟩

/-- The box whose components are made of those of two boxes, axis by axis. -/
def combine (op : Interval → Interval → Interval) (a b : Box) : Box :=
  ofComponents (List.zipWith op a.components b.components) (zipWith_components_ne_nil op a b)

theorem dim_combine (op : Interval → Interval → Interval) (h : a.dim = b.dim) :
    (combine op a b).dim = a.dim := by
  have hlength : a.components.length = b.components.length := h
  show (ofComponents _ _).components.length = a.components.length
  rw [length_ofComponents, List.length_zipWith, ← hlength, Nat.min_self]

/-- An empty operand leaves nothing on the first axis. -/
theorem isEmpty_combine_inter (h : a.isEmpty = true ∨ b.isEmpty = true) :
    (combine Interval.inter a b).isEmpty = true := by
  obtain ⟨x, xs, hxs⟩ := List.exists_cons_of_ne_nil a.nonempty
  obtain ⟨y, ys, hys⟩ := List.exists_cons_of_ne_nil b.nonempty
  have hmet : (x.inter y).isEmpty = true := by
    rcases h with ha | hb
    · rw [← isEmpty_of_mem_components (hxs ▸ List.mem_cons_self)] at ha
      exact Interval.isEmpty_of_subset (Interval.inter_subset_left x y) ha
    · rw [← isEmpty_of_mem_components (hys ▸ List.mem_cons_self)] at hb
      rw [Interval.isEmpty_inter_comm]
      exact Interval.isEmpty_of_subset (Interval.inter_subset_left y x) hb
  rw [combine, isEmpty_ofComponents, hxs, hys]
  simp [hmet]

theorem inter_of_dim_eq (h : a.dim = b.dim) : a.inter b =
    .ok (combine Interval.inter a b, !(combine Interval.inter a b).isEmpty) := by
  rw [inter, checkDim, if_pos h.symm, ofIntervals,
    dif_neg (zipWith_components_ne_nil Interval.inter a b)]
  rfl

/-- Intersecting fails only for boxes of different dimensions. -/
theorem inter_eq_error_iff {e : BoxError} :
    a.inter b = .error e ↔ b.dim ≠ a.dim ∧ e = .dimensionMismatch a.dim b.dim := by
  by_cases hdim : b.dim = a.dim
  · simp [inter_of_dim_eq hdim.symm, hdim]
  · rw [inter, checkDim, if_neg hdim]
    simp [bind, Except.bind, hdim, eq_comm]

end Components

end Box

end Paving
