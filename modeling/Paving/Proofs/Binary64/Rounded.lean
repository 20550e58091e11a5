import Mathlib.Data.Nat.Sqrt
import Paving.Proofs.Binary64.Neighbours

/-!
# Rounded results

`nearestRank num den` is the rank of the number nearest to the signed ratio
`num / den`, counted in units. The ratio lies strictly between the neighbours of
that number (`lt_unitsOfRank_succ`, `unitsOfRank_pred_lt`), a ratio that is a
number rounds to itself (`nearestRank_unitsOfRank`), and the rounded ratio keeps
the sign of all but the smallest ratios (`nearestRank_pos_iff`).

Every operation on finite words has the rank nearest to its exact result:
`rank_add`, `rank_mul`, `rank_div` and `rank_fusedMulAdd` say which ratio that is.
A square root is rounded from the integer root and one more bit
(`rank_sqrt`).
-/

set_option autoImplicit false

namespace Paving

namespace Binary64

/-! ## Signed ratios -/

/-- The rank of the number nearest to `num / den` units. -/
def nearestRank (num : Int) (den : Nat) : Int :=
  num.sign * (nearestIndex num.natAbs den : Int)

theorem nearestIndex_le (num den : Nat) : nearestIndex num den ≤ infinityIndex :=
  Nat.min_le_left _ _

theorem nearestIndex_zero {den : Nat} (hden : 0 < den) : nearestIndex 0 den = 0 :=
  (nearestIndex_eq_zero_iff 0 hden).2 (Nat.zero_le _)

theorem nearestRank_neg (num : Int) (den : Nat) :
    nearestRank (-num) den = -nearestRank num den := by
  rw [nearestRank, nearestRank, Int.sign_neg, Int.natAbs_neg, Int.neg_mul]

theorem natAbs_nearestRank (num : Int) {den : Nat} (hden : 0 < den) :
    (nearestRank num den).natAbs = nearestIndex num.natAbs den := by
  rw [nearestRank, Int.natAbs_mul, Int.natAbs_natCast]
  by_cases h : num = 0
  · rw [h, Int.natAbs_zero, nearestIndex_zero hden, Nat.mul_zero]
  · rw [Int.natAbs_sign_of_ne_zero h, Nat.one_mul]

/-- A rounded ratio is not a NaN. -/
theorem not_nan_of_nearest {x : Binary64} {num : Int} {den : Nat} (hden : 0 < den)
    (h : x.rank = nearestRank num den) : x.isNaN = false := by
  rw [isNaN_eq_false_iff_rank, h, natAbs_nearestRank num hden]
  exact nearestIndex_le _ _

theorem nearestRank_signed (neg : Bool) (n : Nat) {den : Nat} (hden : 0 < den) :
    nearestRank (if neg then -(n : Int) else (n : Int)) den =
      if neg then -(nearestIndex n den : Int) else (nearestIndex n den : Int) := by
  have hnat : nearestRank (n : Int) den = (nearestIndex n den : Int) := by
    rw [nearestRank, Int.natAbs_natCast]
    rcases Nat.eq_zero_or_pos n with h | h
    · rw [h, nearestIndex_zero hden]
      rfl
    · rw [Int.sign_eq_one_of_pos (by omega), Int.one_mul]
  cases neg with
  | false => exact hnat
  | true =>
    rw [if_pos rfl, if_pos rfl, nearestRank_neg, hnat]

theorem unitsOfRank_neg (r : Int) : unitsOfRank (-r) = -unitsOfRank r := by
  simp only [unitsOfRank]
  rcases Int.lt_trichotomy r 0 with h | h | h
  · rw [if_neg (by omega), if_pos h, Int.natAbs_neg, Int.neg_neg]
  · rw [h]
    decide
  · rw [if_pos (by omega), if_neg (by omega), Int.natAbs_neg]

theorem unitsOfRank_natCast (i : Nat) : unitsOfRank (i : Int) = (magnitudeUnits i : Int) := by
  rw [unitsOfRank, if_neg (by omega), Int.natAbs_natCast]

/-- A rounded ratio lies below the number above, unless it is cut off at positive
infinity. -/
theorem lt_unitsOfRank_succ (num : Int) {den : Nat} (hden : 0 < den)
    (h : nearestRank num den < (infinityIndex : Int)) :
    num < unitsOfRank (nearestRank num den + 1) * (den : Int) := by
  by_cases hnum : 0 ≤ num
  · obtain ⟨n, rfl⟩ := Int.eq_ofNat_of_zero_le hnum
    have hrank := nearestRank_signed false n hden
    simp only [Bool.false_eq_true, if_false] at hrank
    rw [hrank] at h ⊢
    have hlt := lt_of_nearestIndex_lt hden (show nearestIndex n den < infinityIndex by omega)
    rw [← Int.natCast_succ, unitsOfRank_natCast]
    exact_mod_cast hlt
  · -- A negative ratio: the number above is the magnitude before the rounded one.
    obtain ⟨n, rfl⟩ : ∃ n : Nat, num = -(n : Int) := ⟨num.natAbs, by omega⟩
    have hrank := nearestRank_signed true n hden
    simp only [if_true] at hrank
    rw [hrank]
    rcases nearestIndex_le_or n hden with hle | ⟨k, hk, hlt⟩
    · have hpos : unitsOfRank (-(nearestIndex n den : Int)) <
          unitsOfRank (-(nearestIndex n den : Int) + 1) := unitsOfRank_strictMono (by omega)
      rw [unitsOfRank_neg, unitsOfRank_natCast] at hpos
      have hscaled := Int.mul_lt_mul_of_pos_right hpos (show (0 : Int) < den by omega)
      have hle' : (magnitudeUnits (nearestIndex n den) : Int) * den ≤ n := by exact_mod_cast hle
      rw [Int.neg_mul] at hscaled
      omega
    · have hsucc : -((k + 1 : Nat) : Int) + 1 = -(k : Int) := by omega
      rw [hk, hsucc, unitsOfRank_neg, unitsOfRank_natCast, Int.neg_mul]
      have hlt' : (magnitudeUnits k : Int) * den < n := by exact_mod_cast hlt
      omega

/-- A rounded ratio lies above the number below, unless it is cut off at negative
infinity. -/
theorem unitsOfRank_pred_lt (num : Int) {den : Nat} (hden : 0 < den)
    (h : -(infinityIndex : Int) < nearestRank num den) :
    unitsOfRank (nearestRank num den - 1) * (den : Int) < num := by
  have hneg := nearestRank_neg num den
  have hlt := lt_unitsOfRank_succ (-num) hden (by omega)
  have hsucc : -nearestRank num den + 1 = -(nearestRank num den - 1) := by omega
  rw [hneg, hsucc, unitsOfRank_neg, Int.neg_mul] at hlt
  omega

/-- A number rounds to itself. -/
theorem nearestRank_unitsOfRank {r : Int} {den : Nat} (hden : 0 < den)
    (hr : r.natAbs < infinityIndex) : nearestRank (unitsOfRank r * (den : Int)) den = r := by
  have hpos : (0 : Int) < den := by omega
  have hbound := nearestIndex_le (unitsOfRank r * (den : Int)).natAbs den
  rw [← natAbs_nearestRank _ hden] at hbound
  -- The number lies strictly between the neighbours of its rounded rank, so it is that rank.
  have habove : nearestRank (unitsOfRank r * (den : Int)) den < (infinityIndex : Int) →
      r ≤ nearestRank (unitsOfRank r * (den : Int)) den := by
    intro h
    have hlt := Int.lt_of_mul_lt_mul_right (lt_unitsOfRank_succ _ hden h) (Int.le_of_lt hpos)
    exact Int.le_of_lt_add_one (unitsOfRank_strictMono.lt_iff_lt.1 hlt)
  have hbelow : -(infinityIndex : Int) < nearestRank (unitsOfRank r * (den : Int)) den →
      nearestRank (unitsOfRank r * (den : Int)) den ≤ r := by
    intro h
    have hlt := Int.lt_of_mul_lt_mul_right (unitsOfRank_pred_lt _ hden h) (Int.le_of_lt hpos)
    have := unitsOfRank_strictMono.lt_iff_lt.1 hlt
    omega
  omega

theorem nearestRank_units {x : Binary64} (hx : x.isFinite = true) :
    nearestRank x.units 1 = x.rank := by
  have hself := nearestRank_unitsOfRank Nat.one_pos (isFinite_iff_rank.1 hx)
  rwa [Int.natCast_one, Int.mul_one, ← units_eq_unitsOfRank] at hself

/-- Only ratios above one half are rounded to a positive number. -/
theorem nearestRank_pos_iff (num : Int) {den : Nat} (hden : 0 < den) :
    0 < nearestRank num den ↔ (den : Int) < 2 * num := by
  have hzero := nearestIndex_eq_zero_iff num.natAbs hden
  by_cases hnum : 0 < num
  · have hrank : nearestRank num den = (nearestIndex num.natAbs den : Int) := by
      rw [nearestRank, Int.sign_eq_one_of_pos hnum, Int.one_mul]
    rw [hrank]
    omega
  · have hle : nearestRank num den ≤ 0 := by
      have hsign : num.sign ≤ 0 := by
        rcases Int.lt_trichotomy num 0 with h | h | h
        · rw [Int.sign_eq_neg_one_of_neg h]
          decide
        · rw [h]
          decide
        · exact absurd h hnum
      exact Int.mul_nonpos_of_nonpos_of_nonneg hsign (Int.natCast_nonneg _)
    omega

theorem nearestRank_neg_iff (num : Int) {den : Nat} (hden : 0 < den) :
    nearestRank num den < 0 ↔ 2 * num < -(den : Int) := by
  have h := nearestRank_pos_iff (-num) hden
  rw [nearestRank_neg] at h
  omega

/-! ## Operations on finite words -/

theorem infinityIndex_lt_signWeight : infinityIndex < signWeight := by
  decide

theorem rank_ofUnits (neg : Bool) (num den : Nat) : (ofUnits neg num den).rank =
    if neg then -(nearestIndex num den : Int) else (nearestIndex num den : Int) :=
  rank_ofIndex neg (Nat.lt_of_le_of_lt (nearestIndex_le num den) infinityIndex_lt_signWeight)

theorem rank_ofSignedUnits (num : Int) {den : Nat} (hden : 0 < den) (zeroSign : Bool) :
    (ofSignedUnits num den zeroSign).rank = nearestRank num den := by
  rw [ofSignedUnits]
  split
  case isTrue h =>
    rw [rank_ofIndex zeroSign (by decide), h]
    cases zeroSign <;> simp [nearestRank]
  case isFalse h =>
    rw [rank_ofUnits, ← nearestRank_signed _ _ hden]
    congr 1
    by_cases hneg : num < 0
    · rw [decide_eq_true hneg, if_pos rfl]
      omega
    · rw [decide_eq_false hneg, if_neg Bool.false_ne_true]
      omega

theorem unitsPerOne_pos_nat : 0 < unitsPerOne := by
  decide +kernel

section Finite

variable {a b c : Binary64}

theorem rank_add (ha : a.isFinite = true) (hb : b.isFinite = true) :
    (a + b).rank = nearestRank (a.units + b.units) 1 := by
  show (add a b).rank = _
  rw [add, not_nan_of_finite ha, not_nan_of_finite hb, not_infinite_of_finite ha,
    not_infinite_of_finite hb]
  exact rank_ofSignedUnits _ Nat.one_pos _

theorem rank_sub (ha : a.isFinite = true) (hb : b.isFinite = true) :
    (a - b).rank = nearestRank (a.units - b.units) 1 := by
  have h := rank_add ha ((isFinite_neg b).trans hb)
  rw [units_neg, ← Int.sub_eq_add_neg] at h
  exact h

theorem rank_mul (ha : a.isFinite = true) (hb : b.isFinite = true) :
    (a * b).rank = nearestRank (a.units * b.units) unitsPerOne := by
  show (mul a b).rank = _
  rw [mul, not_nan_of_finite ha, not_nan_of_finite hb, not_infinite_of_finite ha,
    not_infinite_of_finite hb]
  -- The sign of the product is the product of the signs.
  have hunits : a.units * b.units = if a.negative != b.negative then
      -((magnitudeUnits a.index * magnitudeUnits b.index : Nat) : Int)
      else ((magnitudeUnits a.index * magnitudeUnits b.index : Nat) : Int) := by
    simp only [units]
    cases a.negative <;> cases b.negative <;> simp
  rw [hunits, nearestRank_signed _ _ unitsPerOne_pos_nat]
  exact rank_ofUnits _ _ _

theorem rank_fusedMulAdd (ha : a.isFinite = true) (hb : b.isFinite = true)
    (hc : c.isFinite = true) : (fusedMulAdd a b c).rank =
      nearestRank (a.units * b.units + c.units * unitsPerOne) unitsPerOne := by
  rw [fusedMulAdd, not_nan_of_finite ha, not_nan_of_finite hb, not_nan_of_finite hc,
    not_infinite_of_finite ha, not_infinite_of_finite hb, not_infinite_of_finite hc]
  exact rank_ofSignedUnits _ unitsPerOne_pos_nat _

theorem natAbs_units (x : Binary64) : x.units.natAbs = magnitudeUnits x.index := by
  rw [units]
  split <;> omega

theorem units_ne_zero_iff {x : Binary64} : x.units ≠ 0 ↔ x.index ≠ 0 := by
  have hmono := magnitudeUnits_strictMono.injective.eq_iff (a := x.index) (b := 0)
  rw [magnitudeUnits_zero, ← natAbs_units] at hmono
  omega

theorem rank_div (ha : a.isFinite = true) (hb : b.isFinite = true) (h0 : b.units ≠ 0) :
    (a / b).rank = nearestRank (b.units.sign * (a.units * unitsPerOne)) b.units.natAbs := by
  have hindex := units_ne_zero_iff.1 h0
  show (div a b).rank = _
  rw [div, not_nan_of_finite ha, not_nan_of_finite hb, not_infinite_of_finite ha,
    not_infinite_of_finite hb]
  simp only [hindex, Bool.or_self, Bool.false_eq_true, if_false]
  -- The denominator is the magnitude of the divisor, and the numerator takes its sign.
  have hpos : 0 < magnitudeUnits b.index := by
    rw [← natAbs_units]
    omega
  have hunits : b.units.sign * (a.units * unitsPerOne) = if a.negative != b.negative then
      -((magnitudeUnits a.index * unitsPerOne : Nat) : Int)
      else ((magnitudeUnits a.index * unitsPerOne : Nat) : Int) := by
    have hsign : b.units.sign = if b.negative then -1 else 1 := by
      rw [units]
      cases b.negative with
      | false => exact Int.sign_eq_one_of_pos (by simp; omega)
      | true => exact Int.sign_eq_neg_one_of_neg (by simp; omega)
    rw [hsign]
    rw [units]
    cases a.negative <;> cases b.negative <;> simp
  rw [hunits, natAbs_units, nearestRank_signed _ _ hpos]
  exact rank_ofUnits _ _ _

end Finite

/-! ## Square roots -/

theorem integerRootFrom_eq (n guess : Nat) : integerRootFrom n guess = Nat.sqrt.iter n guess := by
  fun_induction integerRootFrom n guess with
  | case1 guess next h ih =>
    rw [Nat.sqrt.iter, dif_pos h, ih]
  | case2 guess next h =>
    rw [Nat.sqrt.iter, dif_neg h]

/-- The iteration finds the integer square root. -/
theorem integerRoot_eq_sqrt (n : Nat) : integerRoot n = Nat.sqrt n := by
  unfold integerRoot Nat.sqrt
  split
  · rfl
  · exact integerRootFrom_eq n _

/-- Twice the integer root, and one more if the root is not exact. -/
def halvesOfRoot (n : Nat) : Nat :=
  if Nat.sqrt n * Nat.sqrt n = n then 2 * Nat.sqrt n else 2 * Nat.sqrt n + 1

/-- The root of a zero is that zero. -/
theorem sqrt_of_index_eq_zero {x : Binary64} (hx : x.isFinite = true) (h : x.index = 0) :
    x.sqrt = x := by
  rw [sqrt, not_nan_of_finite hx, if_neg Bool.false_ne_true, if_pos h]

theorem rank_sqrt {x : Binary64} (hx : x.isFinite = true) (hpos : 0 < x.rank) :
    x.sqrt.rank = nearestRank (halvesOfRoot (x.units.natAbs * unitsPerOne) : Int) 2 := by
  have hneg : x.negative = false := by
    rw [← Bool.not_eq_true]
    intro h
    rw [rank, if_pos h] at hpos
    omega
  have hindex : x.index ≠ 0 := by
    rw [index_eq_natAbs_rank]
    omega
  have hnearest := nearestRank_signed false (halvesOfRoot (x.units.natAbs * unitsPerOne))
    Nat.two_pos
  simp only [Bool.false_eq_true, if_false] at hnearest
  rw [hnearest, natAbs_units, sqrt, not_nan_of_finite hx, if_neg Bool.false_ne_true, if_neg hindex,
    hneg, if_neg Bool.false_ne_true, not_infinite_of_finite hx, if_neg Bool.false_ne_true]
  simp only [integerRoot_eq_sqrt]
  exact rank_ofUnits false _ 2

end Binary64

end Paving
