import Paving.Proofs.Interval.Products
import Paving.Proofs.Interval.Sums

/-!
# The lattice of intervals

Inclusion of intervals is inclusion of their points (`subset_iff_forall_mem`), and two intervals
that include each other are equal as numbers (`beq_iff_subset`), the signs of zero bounds apart.
The intersection is the greatest interval inside both operands and the hull the least one around
both (`subset_inter_iff`, `hull_subset_iff`). Every equation of a bounded lattice follows from
these two facts alone, so they are derived once, for any order (`MeetLaws`, `LatticeLaws`): a
join is a meet of the reversed order.
-/

set_option autoImplicit false

namespace Paving

/-! ## Lattices up to a test of equality -/

section Laws

variable {α : Type} {le : α → α → Prop} {same : α → α → Bool} {meet join : α → α → α}
variable {top bottom : α}

/-- Greatest lower bounds for an order that has a greatest element, with the equations they
satisfy. -/
structure MeetLaws (le : α → α → Prop) (same : α → α → Bool) (meet : α → α → α) (top : α) :
    Prop where
  le_iff : ∀ x y z, le z (meet x y) ↔ le z x ∧ le z y
  comm : ∀ x y, same (meet x y) (meet y x) = true
  assoc : ∀ x y z, same (meet (meet x y) z) (meet x (meet y z)) = true
  self : ∀ x, same (meet x x) x = true
  identity : ∀ x, same (meet x top) x = true

/-- A bounded lattice whose elements are the same when each is below the other. -/
structure LatticeLaws (le : α → α → Prop) (same : α → α → Bool) (meet join : α → α → α)
    (top bottom : α) : Prop where
  same_iff : ∀ x y, same x y = true ↔ le x y ∧ le y x
  meets : MeetLaws le same meet top
  joins : MeetLaws (fun x y => le y x) same join bottom
  meet_join : ∀ x y, same (meet x (join x y)) x = true
  join_meet : ∀ x y, same (join x (meet x y)) x = true

/-- Greatest lower bounds satisfy the equations. -/
theorem meetLaws_of_le_iff (hrefl : ∀ x, le x x) (htrans : ∀ x y z, le x y → le y z → le x z)
    (hsame : ∀ x y, same x y = true ↔ le x y ∧ le y x)
    (hmeet : ∀ x y z, le z (meet x y) ↔ le z x ∧ le z y) (htop : ∀ x, le x top) :
    MeetLaws le same meet top := by
  have hleft : ∀ x y, le (meet x y) x := fun x y => ((hmeet x y _).1 (hrefl _)).1
  have hright : ∀ x y, le (meet x y) y := fun x y => ((hmeet x y _).1 (hrefl _)).2
  have hswap : ∀ x y, le (meet x y) (meet y x) := fun x y =>
    (hmeet y x _).2 ⟨hright x y, hleft x y⟩
  constructor
  case le_iff => exact hmeet
  case comm =>
    intro x y
    exact (hsame _ _).2 ⟨hswap x y, hswap y x⟩
  case assoc =>
    intro x y z
    rw [hsame, hmeet, hmeet, hmeet, hmeet]
    have hxy := hleft (meet x y) z
    have hyz := hright x (meet y z)
    exact ⟨⟨htrans _ _ _ hxy (hleft x y), htrans _ _ _ hxy (hright x y), hright _ z⟩,
      ⟨hleft x _, htrans _ _ _ hyz (hleft y z)⟩, htrans _ _ _ hyz (hright y z)⟩
  case self =>
    intro x
    exact (hsame _ _).2 ⟨hleft x x, (hmeet x x x).2 ⟨hrefl x, hrefl x⟩⟩
  case identity =>
    intro x
    exact (hsame _ _).2 ⟨hleft x top, (hmeet x top x).2 ⟨hrefl x, htop x⟩⟩

/-- Greatest lower and least upper bounds make a lattice. -/
theorem latticeLaws_of_le_iff (hrefl : ∀ x, le x x) (htrans : ∀ x y z, le x y → le y z → le x z)
    (hsame : ∀ x y, same x y = true ↔ le x y ∧ le y x)
    (hmeet : ∀ x y z, le z (meet x y) ↔ le z x ∧ le z y)
    (hjoin : ∀ x y z, le (join x y) z ↔ le x z ∧ le y z)
    (htop : ∀ x, le x top) (hbottom : ∀ x, le bottom x) :
    LatticeLaws le same meet join top bottom := by
  constructor
  case same_iff => exact hsame
  case meets => exact meetLaws_of_le_iff hrefl htrans hsame hmeet htop
  case joins =>
    refine meetLaws_of_le_iff hrefl (fun x y z hyx hzy => htrans z y x hzy hyx) ?_ hjoin hbottom
    intro x y
    rw [hsame, and_comm]
  case meet_join =>
    intro x y
    have hmeets := (hmeet x (join x y) _).1 (hrefl _)
    have hjoins := (hjoin x y _).1 (hrefl _)
    exact (hsame _ _).2 ⟨hmeets.1, (hmeet _ _ _).2 ⟨hrefl x, hjoins.1⟩⟩
  case join_meet =>
    intro x y
    have hmeets := (hmeet x y _).1 (hrefl _)
    have hjoins := (hjoin x (meet x y) _).1 (hrefl _)
    exact (hsame _ _).2 ⟨(hjoin _ _ _).2 ⟨hrefl x, hmeets.1⟩, hjoins.1⟩

end Laws

namespace Interval

open Binary64

variable {x y z : Interval}

/-! ## Inclusion -/

/-- An interval lies in another one if all its points do. A bound of `y` that cut off a part of
`x` would leave room for a real number between it and that of `x`. -/
theorem subset_iff_forall_mem : x ⊆ y ↔ ∀ t : ℝ, t ∈ x → t ∈ y := by
  refine ⟨fun h t ht => mem_of_subset h ht, ?_⟩
  intro h
  cases hx : x.isEmpty with
  | true => exact subset_iff.2 (.inl hx)
  | false =>
    obtain ⟨v, -, hvx⟩ := exists_number hx
    have hvy := h _ hvx
    obtain ⟨hxl, hxu⟩ := x.bounds_not_nan
    obtain ⟨hyl, hyu⟩ := y.bounds_not_nan
    refine subset_iff.2 (.inr ⟨not_isEmpty_of_mem hvy, ⟨hyl, hxl, ?_⟩, ⟨hxu, hyu, ?_⟩⟩)
    · rw [← value_le_value_iff hyl hxl]
      by_contra hlt
      obtain ⟨t, hlow, hhigh⟩ := EReal.lt_iff_exists_real_btwn.1 (not_le.1 hlt)
      have hbelow : (t : EReal) ≤ v.toReal := hhigh.le.trans (mem_iff.1 hvy).1
      have ht : t ∈ x := mem_iff.2 ⟨hlow.le, hbelow.trans (mem_iff.1 hvx).2⟩
      exact absurd (mem_iff.1 (h t ht)).1 (not_le.2 hhigh)
    · rw [← value_le_value_iff hxu hyu]
      by_contra hlt
      obtain ⟨t, hlow, hhigh⟩ := EReal.lt_iff_exists_real_btwn.1 (not_le.1 hlt)
      have habove : (v.toReal : EReal) ≤ t := (mem_iff.1 hvy).2.trans hlow.le
      have ht : t ∈ x := mem_iff.2 ⟨(mem_iff.1 hvx).1.trans habove, hhigh.le⟩
      exact absurd (mem_iff.1 (h t ht)).2 (not_le.2 hlow)

/-- Intervals that include each other are equal as numbers. -/
theorem beq_iff_subset : (x == y) = true ↔ x ⊆ y ∧ y ⊆ x := by
  obtain ⟨hxl, hxu⟩ := x.bounds_not_nan
  obtain ⟨hyl, hyu⟩ := y.bounds_not_nan
  have hx := isEmpty_iff x
  have hy := isEmpty_iff y
  rw [beq_iff_rank, subset_iff, subset_iff, ← Bool.not_eq_true, ← Bool.not_eq_true, hx, hy]
  simp only [Binary64.le_iff, hxl, hxu, hyl, hyu, true_and]
  omega

/-! ## Intersection and hull -/

/-- The points of an intersection are the common points. -/
theorem mem_inter_iff {t : ℝ} : t ∈ x.inter y ↔ t ∈ x ∧ t ∈ y :=
  ⟨fun h => ⟨mem_of_subset (inter_subset_left x y) h, mem_of_subset (inter_subset_right x y) h⟩,
    fun h => mem_inter h.1 h.2⟩

/-- The intersection is the greatest interval inside both. -/
theorem subset_inter_iff : z ⊆ x.inter y ↔ z ⊆ x ∧ z ⊆ y := by
  simp only [subset_iff_forall_mem, mem_inter_iff]
  exact forall₂_and

/-- The hull is the least interval around both. -/
theorem hull_subset_iff : x.hull y ⊆ z ↔ x ⊆ z ∧ y ⊆ z := by
  refine ⟨?_, fun h => hull_subset h.1 h.2⟩
  intro h
  simp only [subset_iff_forall_mem] at h ⊢
  exact ⟨fun t ht => h t (mem_hull_left ht), fun t ht => h t (mem_hull_right ht)⟩

theorem contains_iff {v : Binary64} :
    x.contains v = true ↔ x.isEmpty = false ∧ x.lb ≤ v ∧ v ≤ x.ub := by
  simp [contains, and_assoc]

/-- A number lies in the intersection if it lies in both. Both have an infinity as a bound if
both contain it, and then the intersection has it too. -/
theorem contains_inter (x y : Interval) (v : Binary64) :
    (x.inter y).contains v = (x.contains v && y.contains v) := by
  rw [Bool.eq_iff_iff, Bool.and_eq_true]
  constructor
  · intro h
    exact ⟨contains_of_subset (inter_subset_left x y) h,
      contains_of_subset (inter_subset_right x y) h⟩
  · intro h
    simp only [contains_iff] at h
    obtain ⟨⟨hx, hxl, hxu⟩, hy, hyl, hyu⟩ := h
    obtain ⟨-, hxlow, hxhigh⟩ := admissible_of_not_isEmpty hx
    obtain ⟨-, hylow, hyhigh⟩ := admissible_of_not_isEmpty hy
    have hl : larger x.lb y.lb ≤ v ∧ larger x.lb y.lb < posInf := by
      rw [larger]
      split
      · exact ⟨hyl, hylow⟩
      · exact ⟨hxl, hxlow⟩
    have hu : v ≤ smaller x.ub y.ub ∧ negInf < smaller x.ub y.ub := by
      rw [smaller]
      split
      · exact ⟨hyu, hyhigh⟩
      · exact ⟨hxu, hxhigh⟩
    have hadm : AdmissibleBounds (larger x.lb y.lb) (smaller x.ub y.ub) :=
      ⟨Binary64.le_trans hl.1 hu.1, hl.2, hu.2⟩
    rw [inter, hx, hy, Bool.or_self, if_neg Bool.false_ne_true, contains_iff]
    refine ⟨isEmpty_ofBounds_eq_false hadm, ?_⟩
    rw [ofBounds, dif_pos hadm]
    exact ⟨hl.1, hu.1⟩

/-- Intervals form a lattice under inclusion. -/
theorem latticeLaws :
    LatticeLaws (fun x y : Interval => x ⊆ y) (fun x y => x == y) inter hull all empty :=
  latticeLaws_of_le_iff subset_refl (fun _ _ _ => subset_trans) (fun _ _ => beq_iff_subset)
    (fun _ _ _ => subset_inter_iff) (fun _ _ _ => hull_subset_iff) subset_all empty_subset

end Interval

end Paving
