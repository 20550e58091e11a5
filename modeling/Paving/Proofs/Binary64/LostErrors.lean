import Paving.Proofs.Binary64.Outward

/-!
# Sums that lose their error

The error of a sum is recovered by way of the correction `s - a`, and it is lost when that
correction overflows. This is rare. The correction is `b` moved by the error of the sum, which
is at most half of the largest step, so it can overflow only if `b` is the largest finite
number in magnitude and the sum was rounded outward by exactly half a step: a tie.
`LosesError` says this of the operands, for the direction in which the loss does harm, and
`misled_sum_iff` that no other directed sum of finite numbers misses the exact sum.

The roles of the summands differ, so a lost error also shows in their order: two bounds add up
to the same in both orders if and only if neither order loses its error
(`rank_add_comm_iff`).
-/

set_option autoImplicit false

namespace Paving

namespace Binary64

/-- Half of the step between the largest finite numbers, in units. -/
def halfTopStep : Nat :=
  2 ^ 2044

theorem magnitudeUnits_infinityIndex :
    magnitudeUnits infinityIndex = maxUnits + 2 * halfTopStep := by
  decide +kernel

/-- Below the last halfway point a whole number is not rounded to an infinity. -/
theorem isFinite_of_lt_halfway {x : Binary64} {n : Int} (h : x.rank = nearestRank n 1)
    (hn : n.natAbs < maxUnits + halfTopStep) : x.isFinite = true := by
  have hhalfway : 2 * n.natAbs <
      (magnitudeUnits (infinityIndex - 1) + magnitudeUnits (infinityIndex - 1 + 1)) * 1 := by
    have hnext : magnitudeUnits (infinityIndex - 1 + 1) = maxUnits + 2 * halfTopStep :=
      magnitudeUnits_infinityIndex
    rw [hnext, ← maxUnits]
    omega
  have hindex := nearestIndex_le_of_lt_halfway Nat.one_pos hhalfway
  rw [isFinite_iff_rank, h, natAbs_nearestRank n Nat.one_pos]
  exact Nat.lt_of_le_pred (by decide) hindex

/-- The last halfway point is a tie that goes to the infinity. -/
theorem nearestRank_halfway :
    nearestRank ((maxUnits : Int) + halfTopStep) 1 = (infinityIndex : Int) := by
  decide +kernel

section Step

variable {x : Binary64} {n : Int}

/-- The step of a finite number is at most the largest one. -/
theorem stepExponent_le_of_finite (hx : x.isFinite = true) (h : x.rank = nearestRank n 1) :
    stepExponent n.natAbs 1 ≤ 2045 := by
  have hfinite := isFinite_iff_rank.1 hx
  rw [h, natAbs_nearestRank n Nat.one_pos, nearestIndex_eq] at hfinite
  by_contra hlarge
  have hsignificand : binade ≤ significand n.natAbs 1 := binade_le_significand (by omega)
  simp only [infinityIndex, binade] at *
  omega

/-- A whole number that is rounded to a finite number is moved by at most half of the largest
step. -/
theorem natAbs_sub_units_le (hx : x.isFinite = true) (h : x.rank = nearestRank n 1) :
    (n - x.units).natAbs ≤ halfTopStep := by
  have hnear := (roundsTo_units hx h).near
  have hpow := Nat.pow_le_pow_right Nat.two_pos (stepExponent_le_of_finite hx h)
  have htop : 2 ^ 2045 = 2 * halfTopStep := by
    rw [halfTopStep, ← Nat.pow_succ']
  omega

end Step

end Binary64

/-! ## Lost errors -/

namespace Direction

open Binary64

/-- The finite number farthest out on the side from which the direction leads away. -/
def extreme : Direction → Binary64
  | down => maxFinite
  | up => -maxFinite

/-- The error of a sum that was rounded by half of the largest step to the wrong side. -/
def lostUnits : Direction → Int
  | down => -(halfTopStep : Int)
  | up => (halfTopStep : Int)

/-- The directed sum of `a` and `b` loses an error that it should correct: `b` is the extreme
finite number, and the sum was a tie that was rounded to the wrong side. -/
structure LosesError (d : Direction) (a b : Binary64) : Prop where
  finite : a.isFinite = true
  extreme : b.rank = d.extreme.rank
  sum_finite : (a + b).isFinite = true
  tie : a.units + b.units - (a + b).units = d.lostUnits

instance (d : Direction) (a b : Binary64) : Decidable (d.LosesError a b) :=
  decidable_of_iff (a.isFinite = true ∧ b.rank = d.extreme.rank ∧ (a + b).isFinite = true ∧
      a.units + b.units - (a + b).units = d.lostUnits)
    ⟨fun h => ⟨h.1, h.2.1, h.2.2.1, h.2.2.2⟩, fun h => ⟨h.finite, h.extreme, h.sum_finite, h.tie⟩⟩

section Lost

variable {d : Direction} {a b : Binary64} {s t : ℝ}

theorem units_extreme_down : down.extreme.units = (maxUnits : Int) := by
  decide +kernel

theorem units_extreme_up : up.extreme.units = -(maxUnits : Int) := by
  decide +kernel

theorem LosesError.isFinite_right (h : d.LosesError a b) : b.isFinite = true := by
  rw [isFinite_iff_rank, h.extreme]
  cases d with
  | down => decide
  | up => decide

theorem units_eq_iff_rank_eq {x y : Binary64} : x.units = y.units ↔ x.rank = y.rank := by
  rw [units_eq_unitsOfRank, units_eq_unitsOfRank, unitsOfRank_strictMono.injective.eq_iff]

theorem LosesError.units_right (h : d.LosesError a b) : b.units = d.extreme.units :=
  units_eq_iff_rank_eq.2 h.extreme

/-- A directed sum of finite numbers misses the exact sum exactly if it loses its error. -/
theorem misled_sum_iff : (Rounding.sum d a b).Misled ↔ d.LosesError a b := by
  have hdown := units_extreme_down
  have hup := units_extreme_up
  constructor
  · rintro ⟨⟨ha, hb⟩, hsum, hblind, hwrong⟩
    have hsum' : (a + b).isFinite = true := hsum
    have herror := natAbs_sub_units_le hsum' (rank_add ha hb)
    have hb' := natAbs_units_le_maxUnits hb
    -- The correction overflows, so it is at least at the last halfway point.
    have hlarge : maxUnits + halfTopStep ≤ ((a + b).units - a.units).natAbs := by
      by_contra hlt
      have hfinite := isFinite_of_lt_halfway (rank_sub hsum' ha) (Nat.lt_of_not_le hlt)
      have hinfinite : (a + b - a).isInfinite = true := hblind
      rw [not_infinite_of_finite hfinite] at hinfinite
      cases hinfinite
    -- It is `b` moved by the error, so both are as far out as they can be.
    have hfarthest : b.units = d.extreme.units ∧
        a.units + b.units - (a + b).units = d.lostUnits := by
      cases d with
      | down =>
        have hneg : ¬ 0 ≤ a.units + b.units - (a + b).units := hwrong
        simp only [lostUnits]
        omega
      | up =>
        have hpos : ¬ a.units + b.units - (a + b).units ≤ 0 := hwrong
        simp only [lostUnits]
        omega
    exact ⟨ha, units_eq_iff_rank_eq.1 hfarthest.1, hsum', hfarthest.2⟩
  · intro h
    have hunits := h.units_right
    have htie := h.tie
    have hpos : 0 < halfTopStep := by decide +kernel
    have hrank := rank_sub h.sum_finite h.finite
    refine ⟨⟨h.finite, h.isFinite_right⟩, h.sum_finite, ?_, ?_⟩
    · show (a + b - a).isInfinite = true
      rw [isInfinite_iff_rank, hrank]
      cases d with
      | down =>
        have heq : (a + b).units - a.units = (maxUnits : Int) + halfTopStep := by
          simp only [lostUnits] at htie
          omega
        rw [heq, nearestRank_halfway, Int.natAbs_natCast]
      | up =>
        have heq : (a + b).units - a.units = -((maxUnits : Int) + halfTopStep) := by
          simp only [lostUnits] at htie
          omega
        rw [heq, nearestRank_neg, nearestRank_halfway, Int.natAbs_neg, Int.natAbs_natCast]
    · cases d with
      | down =>
        show ¬ 0 ≤ a.units + b.units - (a + b).units
        simp only [lostUnits] at htie
        omega
      | up =>
        show ¬ a.units + b.units - (a + b).units ≤ 0
        simp only [lostUnits] at htie
        omega

/-- A directed sum of finite numbers bounds the exact sum unless it loses its error. -/
theorem bounds_add_iff (ha : a.isFinite = true) (hb : b.isFinite = true) :
    d.Bounds (d.add a b) (a.toReal + b.toReal) ↔ ¬ d.LosesError a b := by
  rw [Rounding.bounds_sum_iff ha hb, misled_sum_iff]

/-- At most one order of the summands loses its error: two extreme numbers on the same side
have no finite sum. -/
theorem LosesError.not_swapped (h : d.LosesError a b) : ¬ d.LosesError b a := by
  intro h'
  have ha := h'.units_right
  have hb := h.units_right
  have hsum := natAbs_units_le_maxUnits h.sum_finite
  have htie := h.tie
  have hdown := units_extreme_down
  have hup := units_extreme_up
  have hpos : 0 < maxUnits := by decide +kernel
  cases d with
  | down =>
    simp only [lostUnits] at htie
    omega
  | up =>
    simp only [lostUnits] at htie
    omega

/-! ## The order of summands -/

/-- Bounds are compared by their ranks. -/
theorem Bounds.of_rank_eq {x y : Binary64} (h : d.Bounds x t) (hy : y.isNaN = false)
    (hr : x.rank = y.rank) : d.Bounds y t := by
  have hvalue : x.value = y.value :=
    le_antisymm ((value_le_value_iff h.not_nan hy).2 hr.le)
      ((value_le_value_iff hy h.not_nan).2 hr.ge)
  cases d with
  | down => exact ⟨hy, hvalue ▸ h.2⟩
  | up => exact ⟨hy, hvalue ▸ h.2⟩

theorem side_antisymm {i j : Int} (h : d.Side i j) (h' : d.Side j i) : i = j := by
  cases d with
  | down => exact Int.le_antisymm h h'
  | up => exact Int.le_antisymm h' h

/-- Bounds add up to the same in both orders exactly if neither order loses its error. -/
theorem rank_add_comm_iff (ha : d.Bounds a s) (hb : d.Bounds b t) :
    (d.add a b).rank = (d.add b a).rank ↔ ¬ d.LosesError a b ∧ ¬ d.LosesError b a := by
  by_cases hfinite : a.isFinite = true ∧ b.isFinite = true
  · obtain ⟨hfa, hfb⟩ := hfinite
    have hab := bounds_add_iff (d := d) hfa hfb
    have hba := bounds_add_iff (d := d) hfb hfa
    rw [add_comm b.toReal] at hba
    -- A sum that loses its error bounds nothing, and the other order then does not lose it.
    have hdiffers : ∀ {x y : Binary64}, d.Bounds y (a.toReal + b.toReal) →
        ¬ d.Bounds x (a.toReal + b.toReal) → x.isNaN = false → ¬ x.rank = y.rank := by
      intro x y hy hx hnan heq
      exact hx (hy.of_rank_eq hnan heq.symm)
    have hnab := (outward_add (d := d) hfa hfb (bounds_toReal hfa) (bounds_toReal hfb)).not_nan
    have hnba := (outward_add (d := d) hfb hfa (bounds_toReal hfb) (bounds_toReal hfa)).not_nan
    constructor
    · intro heq
      constructor
      · intro hlost
        have hbound := hba.2 hlost.not_swapped
        exact hdiffers hbound (fun h => hab.1 h hlost) hnab heq
      · intro hlost
        have hbound := hab.2 hlost.not_swapped
        exact hdiffers hbound (fun h => hba.1 h hlost) hnba heq.symm
    · rintro ⟨hkept, hkept'⟩
      -- Both are closest bounds of the same sum.
      have hbound := hab.2 hkept
      have hbound' := hba.2 hkept'
      refine side_antisymm (d := d) (side_add hfb hfa ?_) (side_add hfa hfb hbound')
      rw [add_comm]
      exact hbound
  · have hinfinite := infinite_of_not_finite ha.not_nan hb.not_nan hfinite
    refine iff_of_true ?_ ⟨fun h => hfinite ⟨h.finite, h.isFinite_right⟩,
      fun h => hfinite ⟨h.isFinite_right, h.finite⟩⟩
    rw [add_eq_of_infinite ha hb hinfinite, add_eq_of_infinite hb ha hinfinite.symm]

end Lost

end Direction

end Paving
