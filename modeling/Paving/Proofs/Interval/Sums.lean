import Paving.Proofs.Binary64.LostErrors
import Paving.Proofs.Interval.Emptiness

/-!
# Sums and differences of intervals

A sum of intervals holds the sums of their points unless a bound loses its error
(`add_encloses_iff`), and it depends on the order of its operands in these cases only
(`add_comm_iff`). A difference is a sum with the reflected operand (`sub_eq_add_neg`).

The sum of `[-3 * 2^970, -3 * 2^970]` and the largest finite number is such a case
(`lostSum_misses`).
-/

set_option autoImplicit false

namespace Paving

namespace Interval

open Binary64 Direction

section Bounds

variable {x y : Interval}

theorem lb_add (hx : x.isEmpty = false) (hy : y.isEmpty = false) :
    (x + y).lb = down.add x.lb y.lb := by
  show (add x y).lb = _
  rw [add, hx, hy, Bool.or_self, if_neg Bool.false_ne_true, ofBounds,
    dif_pos (admissible_add hx hy)]

theorem ub_add (hx : x.isEmpty = false) (hy : y.isEmpty = false) :
    (x + y).ub = up.add x.ub y.ub := by
  show (add x y).ub = _
  rw [add, hx, hy, Bool.or_self, if_neg Bool.false_ne_true, ofBounds,
    dif_pos (admissible_add hx hy)]

theorem admissible_neg (hx : x.isEmpty = false) : AdmissibleBounds (-x.ub) (-x.lb) := by
  have hneg : (neg x).isEmpty = false := (isEmpty_neg x).trans hx
  rw [neg, hx, if_neg Bool.false_ne_true, ← Bool.not_eq_true, isEmpty_ofBounds_iff,
    not_not] at hneg
  exact hneg

theorem neg_of_not_isEmpty (hx : x.isEmpty = false) :
    -x = ⟨-x.ub, -x.lb, .inr (admissible_neg hx)⟩ := by
  show neg x = _
  rw [neg, hx, if_neg Bool.false_ne_true, ofBounds, dif_pos (admissible_neg hx)]

/-- A difference is the sum with the reflected subtrahend. -/
theorem sub_eq_add_neg (x y : Interval) : x - y = x + -y := by
  show sub x y = add x (-y)
  rw [sub, add, isEmpty_neg]
  cases hy : y.isEmpty with
  | true => rw [Bool.or_true, if_pos rfl, if_pos rfl]
  | false =>
    rw [neg_of_not_isEmpty hy]
    rfl

end Bounds

/-! ## Sums enclose sums -/

section Encloses

variable {x y : Interval}

/-- A finite bound belongs to its interval. -/
theorem toReal_lb_mem (h : x.lb.isFinite = true) : x.lb.toReal ∈ x :=
  toReal_mem_of_rank h (Int.le_refl _) x.lb_le_ub.2.2

theorem toReal_ub_mem (h : x.ub.isFinite = true) : x.ub.toReal ∈ x :=
  toReal_mem_of_rank h x.lb_le_ub.2.2 (Int.le_refl _)

theorem add_encloses_iff (x y : Interval) :
    (∀ s ∈ x, ∀ t ∈ y, s + t ∈ x + y) ↔
      ¬ down.LosesError x.lb y.lb ∧ ¬ up.LosesError x.ub y.ub := by
  constructor
  · intro hencloses
    -- A bound that loses its error does not bound the sum of the finite bounds it comes from.
    constructor
    · intro hlost
      have hx := toReal_lb_mem hlost.finite
      have hy := toReal_lb_mem hlost.isFinite_right
      have hbound := (hencloses _ hx _ hy).1
      rw [lb_add (not_isEmpty_of_mem hx) (not_isEmpty_of_mem hy),
        bounds_add_iff hlost.finite hlost.isFinite_right] at hbound
      exact hbound hlost
    · intro hlost
      have hx := toReal_ub_mem hlost.finite
      have hy := toReal_ub_mem hlost.isFinite_right
      have hbound := (hencloses _ hx _ hy).2
      rw [ub_add (not_isEmpty_of_mem hx) (not_isEmpty_of_mem hy),
        bounds_add_iff hlost.finite hlost.isFinite_right] at hbound
      exact hbound hlost
  · rintro ⟨hdown, hup⟩ s hs t ht
    apply mem_add hs ht
    intro r hr
    rcases List.mem_pair.1 hr with rfl | rfl
    · rwa [misled_sum_iff]
    · rwa [misled_sum_iff]

/-- The points of a reflection are the reflected points. -/
theorem mem_neg_iff {t : ℝ} : t ∈ -x ↔ -t ∈ x := by
  constructor
  · intro ht
    have hx : x.isEmpty = false := (isEmpty_neg x).symm.trans (not_isEmpty_of_mem ht)
    obtain ⟨hlb, hub⟩ := x.bounds_not_nan
    rw [neg_of_not_isEmpty hx] at ht
    refine ⟨Bounds.of_rank_eq (d := down) ht.2.neg hlb ?_,
      Bounds.of_rank_eq (d := up) ht.1.neg hub ?_⟩
    · rw [rank_neg, rank_neg, Int.neg_neg]
    · rw [rank_neg, rank_neg, Int.neg_neg]
  · intro ht
    have hneg := mem_neg ht
    rwa [neg_neg] at hneg

theorem sub_encloses_iff (x y : Interval) :
    (∀ s ∈ x, ∀ t ∈ y, s - t ∈ x - y) ↔
      ¬ down.LosesError x.lb (-y.ub) ∧ ¬ up.LosesError x.ub (-y.lb) := by
  cases hy : y.isEmpty with
  | true =>
    have hempty : y = empty := eq_empty_iff.2 hy
    subst hempty
    refine iff_of_true ?_ ⟨fun h => ?_, fun h => ?_⟩
    · intro s _ t ht
      rw [not_isEmpty_of_mem ht] at hy
      cases hy
    · exact absurd h.isFinite_right (by decide)
    · exact absurd h.isFinite_right (by decide)
  | false =>
    have hreflected : (∀ s ∈ x, ∀ t ∈ y, s - t ∈ x - y) ↔ ∀ s ∈ x, ∀ t ∈ -y, s + t ∈ x + -y := by
      rw [sub_eq_add_neg]
      constructor
      · intro h s hs t ht
        have hmem := h s hs (-t) (mem_neg_iff.1 ht)
        rwa [sub_neg_eq_add] at hmem
      · intro h s hs t ht
        exact h s hs (-t) (mem_neg ht)
    rw [hreflected, add_encloses_iff, neg_of_not_isEmpty hy]

/-! ## The order of summands -/

/-- Intervals are equal as numbers if the ranks of their bounds are. -/
theorem beq_iff_rank :
    (x == y) = true ↔ x.lb.rank = y.lb.rank ∧ x.ub.rank = y.ub.rank := by
  obtain ⟨hxl, hxu⟩ := x.bounds_not_nan
  obtain ⟨hyl, hyu⟩ := y.bounds_not_nan
  show (x.lb == y.lb && x.ub == y.ub) = true ↔ _
  rw [Bool.and_eq_true, Binary64.beq_iff, Binary64.beq_iff]
  exact ⟨fun h => ⟨h.1.2.2, h.2.2.2⟩, fun h => ⟨⟨hxl, hyl, h.1⟩, hxu, hyu, h.2⟩⟩

/-- The empty interval loses no error. -/
theorem not_losesError_of_isEmpty (hx : x.isEmpty = true) (d : Direction) (a : Binary64) :
    (¬ d.LosesError x.lb a ∧ ¬ d.LosesError a x.lb) ∧
      ¬ d.LosesError x.ub a ∧ ¬ d.LosesError a x.ub := by
  have hempty : x = empty := eq_empty_iff.2 hx
  have hinfinite : ¬ negInf.isFinite = true := by decide
  subst hempty
  exact ⟨⟨fun h => hinfinite h.finite, fun h => hinfinite h.isFinite_right⟩,
    fun h => hinfinite h.finite, fun h => hinfinite h.isFinite_right⟩

theorem add_comm_iff (x y : Interval) :
    (x + y == y + x) = true ↔
      (¬ down.LosesError x.lb y.lb ∧ ¬ down.LosesError y.lb x.lb) ∧
        ¬ up.LosesError x.ub y.ub ∧ ¬ up.LosesError y.ub x.ub := by
  -- An empty operand makes both sums empty, and loses nothing.
  have hsum : (x.isEmpty || y.isEmpty) = true → x + y = y + x := by
    intro h
    have hxy : x + y = empty := eq_empty_iff.2 ((isEmpty_add x y).trans h)
    have hyx : y + x = empty :=
      eq_empty_iff.2 ((isEmpty_add y x).trans ((Bool.or_comm _ _).trans h))
    rw [hxy, hyx]
  rw [beq_iff_rank]
  cases hx : x.isEmpty with
  | true =>
    have hlost := not_losesError_of_isEmpty hx
    rw [hsum (by rw [hx, Bool.true_or])]
    exact iff_of_true ⟨rfl, rfl⟩ ⟨(hlost down y.lb).1, (hlost up y.ub).2⟩
  | false =>
    cases hy : y.isEmpty with
    | true =>
      have hlost := not_losesError_of_isEmpty hy
      rw [hsum (by rw [hy, Bool.or_true])]
      exact iff_of_true ⟨rfl, rfl⟩ ⟨(hlost down x.lb).1.symm, (hlost up x.ub).2.symm⟩
    | false =>
      obtain ⟨v, -, hv⟩ := exists_number hx
      obtain ⟨w, -, hw⟩ := exists_number hy
      rw [lb_add hx hy, lb_add hy hx, ub_add hx hy, ub_add hy hx,
        rank_add_comm_iff hv.1 hw.1, rank_add_comm_iff hv.2 hw.2]

end Encloses

/-- Sums and differences of intervals are sound up to lost errors, for all intervals: a sum
holds all sums of points exactly if neither of its bounds loses its error, a difference all
differences exactly if neither of its bounds does, and a sum does not depend on the order of
its operands exactly if no bound loses its error in either order. An error is lost only if a
bound of the second operand is the largest finite number, or its reflection, and the sum of the
bounds is a tie that is rounded to the wrong side. -/
theorem sums_sound_up_to_lost_errors (x y : Interval) :
    ((∀ s ∈ x, ∀ t ∈ y, s + t ∈ x + y) ↔
        ¬ down.LosesError x.lb y.lb ∧ ¬ up.LosesError x.ub y.ub) ∧
      ((∀ s ∈ x, ∀ t ∈ y, s - t ∈ x - y) ↔
        ¬ down.LosesError x.lb (-y.ub) ∧ ¬ up.LosesError x.ub (-y.lb)) ∧
      ((x + y == y + x) = true ↔
        (¬ down.LosesError x.lb y.lb ∧ ¬ down.LosesError y.lb x.lb) ∧
          ¬ up.LosesError x.ub y.ub ∧ ¬ up.LosesError y.ub x.ub) :=
  ⟨add_encloses_iff x y, sub_encloses_iff x y, add_comm_iff x y⟩

/-- The interval that holds `-3 * 2^970` only. -/
def tripleStep : Interval :=
  ofBounds ⟨0xfca8000000000000⟩ ⟨0xfca8000000000000⟩

/-- The interval that holds the largest finite number only. -/
def largest : Interval :=
  ofBounds maxFinite maxFinite

theorem losesError_tripleStep : down.LosesError tripleStep.lb largest.lb := by
  decide +kernel

/-- The exact sum of the largest finite number and `-3 * 2^970` lies below the lower bound that
is computed for it, and not below the one that is computed in the other order. -/
theorem lostSum_misses : (∃ s ∈ tripleStep, ∃ t ∈ largest, s + t ∉ tripleStep + largest) ∧
    (tripleStep + largest == largest + tripleStep) = false := by
  have hlost := losesError_tripleStep
  constructor
  · have hnot := mt (add_encloses_iff tripleStep largest).1 fun h => h.1 hlost
    push Not at hnot
    exact hnot
  · rw [← Bool.not_eq_true, add_comm_iff]
    exact fun h => h.1.1 hlost

end Interval

end Paving
