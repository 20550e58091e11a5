import Paving.Box.Inclusion
import Paving.Proofs.Interval.Points

/-!
# The real points of a box

A point of a box is a list of reals, one for each axis, each in its component.
Restoring the invariant of a box loses no point, because a box with a point has no
empty component; so replacing or narrowing a component keeps the points whose
coordinate stays, and the two halves of a bisected box have all its points between
them (`mem_halves_of_bisectAxis`), those on the shared face twice.
-/

set_option autoImplicit false

namespace Paving

namespace Box

/-- Every coordinate lies in its component. -/
def HoldsAll (xs : List Interval) (p : List ℝ) : Prop :=
  p.length = xs.length ∧
    ∀ (i : Nat) (x : Interval) (t : ℝ), xs[i]? = some x → p[i]? = some t → t ∈ x

/-- The points of a box. -/
instance : Membership (List ℝ) Box where
  mem b p := HoldsAll b.components p

/-- The coordinate of a point on an axis of the box. -/
theorem exists_coordinate {xs : List Interval} {p : List ℝ} (h : HoldsAll xs p) {i : Nat}
    {x : Interval} (hx : xs[i]? = some x) : ∃ t, p[i]? = some t ∧ t ∈ x := by
  have hi : i < p.length := by
    rw [h.1]
    exact (List.getElem?_eq_some_iff.1 hx).1
  have ht : p[i]? = some p[i] := List.getElem?_eq_getElem hi
  exact ⟨p[i], ht, h.2 i x p[i] hx ht⟩

theorem not_isEmpty_of_holdsAll {xs : List Interval} {p : List ℝ} (h : HoldsAll xs p)
    {x : Interval} (hx : x ∈ xs) : x.isEmpty = false := by
  obtain ⟨i, hi⟩ := List.mem_iff_getElem?.1 hx
  obtain ⟨t, -, ht⟩ := exists_coordinate h hi
  exact Interval.not_isEmpty_of_mem ht

/-- A box with a point is not empty. -/
theorem not_isEmpty_of_mem {b : Box} {p : List ℝ} (h : p ∈ b) : b.isEmpty = false :=
  not_isEmpty_of_holdsAll h (List.head_mem b.nonempty)

/-- A sub-box has no other points. -/
theorem mem_of_subset {a b : Box} {p : List ℝ} (hab : a ⊆ b) (hp : p ∈ a) : p ∈ b := by
  refine ⟨hp.1.trans hab.1, ?_⟩
  intro i y t hy ht
  have hi : i < a.components.length := by
    have hdim : a.components.length = b.components.length := hab.1
    rw [hdim]
    exact (List.getElem?_eq_some_iff.1 hy).1
  have hx : a.components[i]? = some a.components[i] := List.getElem?_eq_getElem hi
  exact Interval.mem_of_subset (hab.2 i _ y hx hy) (hp.2 i _ t hx ht)

/-- Restoring the invariant keeps the points of the components. -/
theorem mem_ofComponents {xs : List Interval} (h : xs ≠ []) {p : List ℝ} (hp : HoldsAll xs p) :
    p ∈ ofComponents xs h := by
  have hnone : ¬ xs.any Interval.isEmpty = true := by
    rw [List.any_eq_true]
    rintro ⟨x, hx, he⟩
    rw [not_isEmpty_of_holdsAll hp hx] at he
    exact absurd he Bool.false_ne_true
  rw [ofComponents, dif_neg hnone]
  exact hp

theorem mem_ofComponents_singleton {x : Interval} {t : ℝ} (h : t ∈ x) :
    [t] ∈ ofComponents [x] (List.cons_ne_nil x []) := by
  refine mem_ofComponents _ ⟨rfl, ?_⟩
  intro i y s hy hs
  match i with
  | 0 =>
    cases hy
    cases hs
    exact h

/-- Replacing a component keeps the points whose coordinate lies in the new one. -/
theorem mem_replace {b : Box} {p : List ℝ} (hp : p ∈ b) {axis : Nat} {x : Interval}
    (hx : ∀ t, p[axis]? = some t → t ∈ x) : p ∈ b.replace axis x := by
  refine mem_ofComponents _ ⟨by rw [List.length_set]; exact hp.1, ?_⟩
  intro i y t hy ht
  -- Only the coordinate on the axis is affected.
  by_cases hi : axis = i
  · subst hi
    have hlt : axis < b.components.length := by
      have := (List.getElem?_eq_some_iff.1 hy).1
      rwa [List.length_set] at this
    rw [List.getElem?_set_self hlt] at hy
    cases hy
    exact hx t ht
  · rw [List.getElem?_set_ne hi] at hy
    exact hp.2 i y t hy ht

/-- Narrowing a component keeps the points whose coordinate lies in the target. -/
theorem mem_narrow {b : Box} {p : List ℝ} (hp : p ∈ b) {axis : Nat} {x : Interval}
    (hx : ∀ t, p[axis]? = some t → t ∈ x) : p ∈ b.narrow axis x := by
  refine mem_ofComponents _ ⟨by rw [List.length_modify]; exact hp.1, ?_⟩
  intro i y t hy ht
  by_cases hi : axis = i
  · subst hi
    rw [List.getElem?_modify_eq] at hy
    obtain ⟨own, hown, rfl⟩ := Option.map_eq_some_iff.1 hy
    exact Interval.mem_inter (hp.2 axis own t hown ht) (hx t ht)
  · rw [List.getElem?_modify_ne _ _ hi] at hy
    exact hp.2 i y t hy ht

/-- What is left of a narrowed box has the point, and is said not to be empty. -/
def Keeps (narrowed : Box × Bool) (p : List ℝ) : Prop :=
  p ∈ narrowed.1 ∧ narrowed.2 = true

/-! ## Bisection -/

/-- Every point of a box lies in one of its halves. -/
theorem mem_halves_of_bisectAxis {b lower upper : Box} {axis : Nat} {p : List ℝ}
    (h : b.bisectAxis axis = .ok (lower, upper)) (hp : p ∈ b) : p ∈ lower ∨ p ∈ upper := by
  obtain ⟨x, point, xl, xu, hx, hb, rfl, rfl⟩ := bisectAxis_eq_ok h
  obtain ⟨t, ht, htx⟩ := exists_coordinate hp hx
  -- The coordinate on the axis decides which half has the point.
  rcases Interval.mem_halves_of_bisectAt hb htx with hlow | hup
  · refine .inl (mem_replace hp fun s hs => ?_)
    rw [ht] at hs
    cases hs
    exact hlow
  · refine .inr (mem_replace hp fun s hs => ?_)
    rw [ht] at hs
    cases hs
    exact hup

/-! ## A segment -/

/-- The interval `[-1, 1]` on one axis. -/
def unitSegment : Box :=
  ofComponents [Interval.ofBounds ⟨0xbff0000000000000⟩ ⟨0x3ff0000000000000⟩] (List.cons_ne_nil _ _)

theorem mem_unitSegment {t : ℝ} (hlow : -1 ≤ t) (hhigh : t ≤ 1) : [t] ∈ unitSegment := by
  have hminus : (⟨0xbff0000000000000⟩ : Binary64).toReal = ((-1 : Int) : ℝ) :=
    Binary64.toReal_of_units (by decide +kernel)
  apply mem_ofComponents_singleton
  apply Interval.mem_ofBounds
  · refine ⟨by decide, ?_⟩
    rw [Binary64.value_of_finite (by decide), hminus, EReal.coe_le_coe_iff]
    exact_mod_cast hlow
  · refine ⟨by decide, ?_⟩
    rw [Binary64.value_of_finite (by decide), Binary64.toReal_one, EReal.coe_le_coe_iff]
    exact hhigh

theorem zero_mem_unitSegment : [(0 : ℝ)] ∈ unitSegment :=
  mem_unitSegment (by norm_num) (by norm_num)

end Box

end Paving
