import Mathlib.Data.EReal.Basic
import Mathlib.Data.Int.ConditionallyCompleteOrder
import Mathlib.Tactic.Ring
import Paving.Binary64.Directed
import Paving.Binary64.Order

/-!
# The numbers that words stand for

A finite word stands for a real number, its whole number of units, and an
infinity for an end of the extended real line. The order of words by rank is the
order of these values (`value_le_value_iff`), because magnitudes grow with their
index by one step of the binade at a time (`magnitudeUnits_succ`).

`Direction.Bounds d a t` says that the word `a` is a bound for the real `t` on the
side `d` rounds to: below it for `down`, above it for `up`.
-/

set_option autoImplicit false

namespace Paving

namespace Binary64

/-! ## Magnitudes by index -/

/-- The next magnitude is one step further, and the step depends on the binade. -/
theorem magnitudeUnits_succ (i : Nat) :
    magnitudeUnits (i + 1) = magnitudeUnits i + 2 ^ (i / binade - 1) := by
  simp only [magnitudeUnits, binade, Nat.shiftLeft_eq]
  -- Inside the first binade, from it into the second, and beyond.
  rcases Nat.lt_trichotomy (i + 1) 4503599627370496 with h | h | h
  · have h0 : i / 4503599627370496 = 0 := by omega
    rw [if_pos h, if_pos (by omega), h0]
    simp
  · have h0 : i / 4503599627370496 = 0 := by omega
    have h1 : (i + 1) / 4503599627370496 = 1 := by omega
    have h2 : (i + 1) % 4503599627370496 = 0 := by omega
    rw [if_neg (by omega), if_pos (by omega), h0, h1, h2]
    simp
    omega
  · rw [if_neg (by omega), if_neg (by omega)]
    by_cases hm : (i + 1) % 4503599627370496 = 0
    · -- The last index of a binade: the significand wraps and the step doubles.
      have h1 : (i + 1) / 4503599627370496 - 1 = (i / 4503599627370496 - 1) + 1 := by omega
      have h2 : i % 4503599627370496 = 4503599627370495 := by omega
      rw [hm, h1, h2]
      ring
    · have h1 : (i + 1) / 4503599627370496 = i / 4503599627370496 := by omega
      have h2 : (i + 1) % 4503599627370496 = i % 4503599627370496 + 1 := by omega
      rw [h1, h2]
      ring

theorem magnitudeUnits_strictMono : StrictMono magnitudeUnits := by
  refine strictMono_nat_of_lt_succ fun i => ?_
  rw [magnitudeUnits_succ]
  exact Nat.lt_add_of_pos_right (Nat.two_pow_pos _)

theorem magnitudeUnits_zero : magnitudeUnits 0 = 0 := by
  decide

/-- The units of the word with a given rank, whatever the sign of its zero. -/
def unitsOfRank (r : Int) : Int :=
  if r < 0 then -(magnitudeUnits r.natAbs : Int) else (magnitudeUnits r.natAbs : Int)

theorem units_eq_unitsOfRank (x : Binary64) : x.units = unitsOfRank x.rank := by
  unfold units rank unitsOfRank
  cases x.negative with
  | false => simp
  | true =>
    by_cases h0 : x.index = 0
    · simp [h0, magnitudeUnits_zero]
    · have hneg : -(x.index : Int) < 0 := by omega
      rw [if_pos rfl, if_pos rfl, if_pos hneg, Int.natAbs_neg, Int.natAbs_natCast]

theorem unitsOfRank_strictMono : StrictMono unitsOfRank := by
  intro r s hrs
  simp only [unitsOfRank]
  -- Below zero the magnitude shrinks as the rank grows; across zero the signs decide.
  by_cases hs : s < 0
  · have hr : r < 0 := by omega
    rw [if_pos hr, if_pos hs]
    have := magnitudeUnits_strictMono (show s.natAbs < r.natAbs by omega)
    omega
  · by_cases hr : r < 0
    · rw [if_pos hr, if_neg hs]
      have := magnitudeUnits_strictMono (show 0 < r.natAbs by omega)
      omega
    · rw [if_neg hr, if_neg hs]
      have := magnitudeUnits_strictMono (show r.natAbs < s.natAbs by omega)
      omega

theorem units_le_units_iff {a b : Binary64} : a.units ≤ b.units ↔ a.rank ≤ b.rank := by
  rw [units_eq_unitsOfRank, units_eq_unitsOfRank]
  exact unitsOfRank_strictMono.le_iff_le

theorem units_lt_units_iff {a b : Binary64} : a.units < b.units ↔ a.rank < b.rank := by
  rw [units_eq_unitsOfRank, units_eq_unitsOfRank]
  exact unitsOfRank_strictMono.lt_iff_lt

/-! ## Values -/

/-- The real number that a finite word stands for. -/
noncomputable def toReal (x : Binary64) : ℝ :=
  (x.units : ℝ) / (unitsPerOne : ℝ)

/-- The value among the extended reals. A NaN has none, and what it gets here is
never used. -/
noncomputable def value (x : Binary64) : EReal :=
  if x.isInfinite then (if x.negative then ⊥ else ⊤) else (x.toReal : EReal)

theorem unitsPerOne_pos : (0 : ℝ) < (unitsPerOne : ℝ) := by
  have h : 0 < unitsPerOne := by decide +kernel
  exact_mod_cast h

theorem toReal_of_units {x : Binary64} {n : Int} (h : x.units = n * unitsPerOne) :
    x.toReal = (n : ℝ) := by
  rw [toReal, h, Int.cast_mul, Int.cast_natCast, mul_div_cancel_right₀ _ unitsPerOne_pos.ne']

theorem toReal_one : (⟨0x3ff0000000000000⟩ : Binary64).toReal = 1 := by
  have h : (⟨0x3ff0000000000000⟩ : Binary64).units = 1 * unitsPerOne := by decide +kernel
  rw [toReal_of_units h, Int.cast_one]

theorem toReal_le_toReal_iff {a b : Binary64} : a.toReal ≤ b.toReal ↔ a.rank ≤ b.rank := by
  rw [← units_le_units_iff]
  simp only [toReal]
  rw [div_le_div_iff_of_pos_right unitsPerOne_pos]
  exact Int.cast_le

/-! ## Classes of words -/

theorem index_le_of_not_nan {x : Binary64} (h : x.isNaN = false) : x.index ≤ infinityIndex := by
  simpa [isNaN] using h

theorem isFinite_iff {x : Binary64} : x.isFinite = true ↔ x.index < infinityIndex := by
  simp [isFinite]

theorem isInfinite_iff {x : Binary64} : x.isInfinite = true ↔ x.index = infinityIndex := by
  simp [isInfinite]

theorem not_nan_of_finite {x : Binary64} (h : x.isFinite = true) : x.isNaN = false := by
  have := isFinite_iff.1 h
  simp [isNaN]
  omega

theorem not_infinite_of_finite {x : Binary64} (h : x.isFinite = true) : x.isInfinite = false := by
  have := isFinite_iff.1 h
  simp [isInfinite]
  omega

theorem not_nan_of_infinite {x : Binary64} (h : x.isInfinite = true) : x.isNaN = false := by
  rw [isNaN, isInfinite_iff.1 h]
  decide

theorem not_finite_of_infinite {x : Binary64} (h : x.isInfinite = true) : x.isFinite = false := by
  rw [isFinite, isInfinite_iff.1 h]
  decide

/-- A word that is not a NaN is finite or an infinity. -/
theorem finite_or_infinite {x : Binary64} (h : x.isNaN = false) :
    x.isFinite = true ∨ x.isInfinite = true := by
  have := index_le_of_not_nan h
  rw [isFinite_iff, isInfinite_iff]
  omega

theorem value_of_finite {x : Binary64} (h : x.isFinite = true) : x.value = (x.toReal : EReal) := by
  simp [value, not_infinite_of_finite h]

/-- An infinity is the value at its own end of the line. -/
theorem rank_value_of_infinite {x : Binary64} (h : x.isInfinite = true) :
    (x.rank = -(infinityIndex : Int) ∧ x.value = ⊥) ∨
      (x.rank = (infinityIndex : Int) ∧ x.value = ⊤) := by
  have hi := isInfinite_iff.1 h
  cases hn : x.negative with
  | true => exact .inl ⟨by simp [rank, hn, hi], by simp [value, h, hn]⟩
  | false => exact .inr ⟨by simp [rank, hn, hi], by simp [value, h, hn]⟩

theorem rank_bounds_of_finite {x : Binary64} (h : x.isFinite = true) :
    -(infinityIndex : Int) < x.rank ∧ x.rank < (infinityIndex : Int) := by
  have := isFinite_iff.1 h
  rw [rank]
  split <;> omega

/-- The order by rank is the order of values. -/
theorem value_le_value_iff {a b : Binary64} (ha : a.isNaN = false) (hb : b.isNaN = false) :
    a.value ≤ b.value ↔ a.rank ≤ b.rank := by
  -- An infinity has an extreme rank and an extreme value, so the two orders agree there too.
  rcases finite_or_infinite ha with hfa | hia
  · obtain ⟨hal, hau⟩ := rank_bounds_of_finite hfa
    rcases finite_or_infinite hb with hfb | hib
    · rw [value_of_finite hfa, value_of_finite hfb, EReal.coe_le_coe_iff, toReal_le_toReal_iff]
    · rcases rank_value_of_infinite hib with ⟨hr, hv⟩ | ⟨hr, hv⟩
      · rw [hr, hv, value_of_finite hfa]
        simp
        omega
      · rw [hr, hv]
        simp
        omega
  · rcases rank_value_of_infinite hia with ⟨hr, hv⟩ | ⟨hr, hv⟩
    · obtain ⟨hbl, -⟩ := rank_bounds hb
      rw [rank_negInf] at hbl
      rw [hr, hv]
      simp [hbl]
    · rcases finite_or_infinite hb with hfb | hib
      · obtain ⟨-, hbu⟩ := rank_bounds_of_finite hfb
        rw [hr, hv, value_of_finite hfb]
        simp
        omega
      · rcases rank_value_of_infinite hib with ⟨hr', hv'⟩ | ⟨hr', hv'⟩
        · rw [hr, hv, hr', hv']
          simp [infinityIndex]
        · rw [hr, hv, hr', hv']
          simp

theorem value_lt_value_iff {a b : Binary64} (ha : a.isNaN = false) (hb : b.isNaN = false) :
    a.value < b.value ↔ a.rank < b.rank := by
  rw [← not_le, value_le_value_iff hb ha, Int.not_le]

theorem value_eq_value_iff {a b : Binary64} (ha : a.isNaN = false) (hb : b.isNaN = false) :
    a.value = b.value ↔ a.rank = b.rank := by
  rw [le_antisymm_iff, value_le_value_iff ha hb, value_le_value_iff hb ha, ← le_antisymm_iff]

theorem value_le_value {a b : Binary64} (h : a ≤ b) : a.value ≤ b.value :=
  (value_le_value_iff h.1 h.2.1).2 h.2.2

end Binary64

/-! ## Bounds for real numbers -/

namespace Direction

/-- The word `a` bounds the real `t` from the side that the direction rounds to. -/
def Bounds : Direction → Binary64 → ℝ → Prop
  | down, a, t => a.isNaN = false ∧ a.value ≤ t
  | up, a, t => a.isNaN = false ∧ (t : EReal) ≤ a.value

theorem Bounds.not_nan {d : Direction} {a : Binary64} {t : ℝ} (h : d.Bounds a t) :
    a.isNaN = false := by
  cases d with
  | down => exact h.1
  | up => exact h.1

end Direction

end Paving
