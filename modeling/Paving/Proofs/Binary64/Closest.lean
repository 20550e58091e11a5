import Mathlib.Order.Bounds.Basic
import Paving.Proofs.Binary64.Isotony
import Paving.Proofs.Binary64.Magnitudes

/-!
# Where directed operations are as tight as they can be

A bound of a real is *closest* if every other bound on its side lies farther outward. Of the four
directed operations none steps without need, except that a product or quotient which underflows is
always moved: its residual is not trusted. Everywhere else a result is the closest bound exactly
if it is a bound at all (`closest_bound_iff`), so the conditions under which a rounding is not
misled are also conditions under which it is tight.

* A sum is the closest bound if the second summand is not the largest finite number in magnitude,
  and the error that is recovered from it is then the exact one (`two_sum_exact_and_tight`).
* A product is if it is at least `2^-969`, a quotient if the dividend is and the quotient is not
  subnormal, and a root if the radicand is. What underflows is enclosed strictly
  (`fused_roundings_tight_or_strict`).
-/

set_option autoImplicit false

namespace Paving

open Binary64

/-! ## Closest bounds -/

namespace Direction

/-- The number bounds the real, and no other bound is closer. -/
structure Closest (d : Direction) (x : Binary64) (t : ℝ) : Prop where
  bounds : d.Bounds x t
  side : ∀ v : Binary64, d.Bounds v t → d.Side v.rank x.rank

variable {d : Direction} {a v x error : Binary64} {num : Int} {den : Nat} {t : ℝ}

theorem Closest.isGreatest (h : down.Closest x t) :
    IsGreatest {v : Binary64 | down.Bounds v t} x := by
  refine ⟨h.bounds, ?_⟩
  intro v (hv : down.Bounds v t)
  exact ⟨hv.not_nan, h.bounds.not_nan, h.side v hv⟩

theorem Closest.isLeast (h : up.Closest x t) : IsLeast {v : Binary64 | up.Bounds v t} x := by
  refine ⟨h.bounds, ?_⟩
  intro v (hv : up.Bounds v t)
  exact ⟨h.bounds.not_nan, hv.not_nan, h.side v hv⟩

/-- A correction does not pass a bound of the real, whatever the error term misses: it steps only
where the error term shows that the number lies on the wrong side. -/
theorem side_correct (hv : d.Bounds v t) (hx : x.isFinite = true) (hside : d.Side v.rank x.rank)
    (hneeded : d.wrongSide error = true → ¬ d.Bounds x t) :
    d.Side v.rank (d.correct x error).rank := by
  rw [correct]
  split
  case isTrue hwrong => exact side_step_of_wrong hv hx (hneeded hwrong)
  case isFalse => exact hside

/-- A product or quotient that does not underflow does not pass a bound of the exact one. -/
theorem side_settled {scale : Nat} {nonzero : Bool} (hden : 0 < den) (hscale : 0 < scale)
    (hr : x.rank = nearestRank num den)
    (herror : x.isFinite = true → error.rank = nearestRank (num - x.units * den) scale)
    (hnormal : ¬ (nonzero = true ∧ x.abs < minNormal)) (hv : d.Bounds v (ratio num den)) :
    d.Side v.rank ((d.settle? x true nonzero).getD (d.correct x error)).rank := by
  have hnan := not_nan_of_nearest hden hr
  have hside : d.Side v.rank x.rank := by
    rw [hr]
    exact side_nearestRank hden hv
  rw [settle?, hnan, if_neg Bool.false_ne_true]
  rcases finite_or_infinite hnan with hfinite | hinfinite
  · have htrusted : ¬ (nonzero && decide (x.abs < minNormal)) = true := by
      rwa [Bool.and_eq_true, decide_eq_true_iff]
    rw [not_infinite_of_finite hfinite, if_neg Bool.false_ne_true, if_neg htrusted,
      Option.getD_none]
    apply side_correct hv hfinite hside
    intro hwrong
    rw [bounds_ratio_iff hden hfinite]
    exact ((wrongSide_iff hscale (herror hfinite)).1 hwrong).1
  · rw [hinfinite, if_pos rfl, if_pos rfl, Option.getD_some]
    exact side_saturate hv hside

/-- The half units that stand for a root have the same bounds as the root. -/
theorem bounds_halvesOfRoot (ha : 0 ≤ a.units) (hv : d.Bounds v (Real.sqrt a.toReal)) :
    d.Bounds v (ratio (halvesOfRoot (a.units.natAbs * unitsPerOne) : Int) 2) := by
  rcases hv.finite_or_limit with hfinite | ⟨-, hlimit⟩
  · rw [bounds_ratio_iff Nat.two_pos hfinite]
    rw [bounds_iff_side hfinite] at hv
    have hroot := Rounding.sqrt_toReal_mul_unitsPerOne ha
    have hscaled : v.toReal * unitsPerOne = (v.units : ℝ) := by
      rw [toReal, div_mul_cancel₀ _ unitsPerOne_pos.ne']
    generalize a.units.natAbs * unitsPerOne = n at hroot ⊢
    -- Between two whole numbers of units the root is not exact, and a half unit stands for it.
    cases d with
    | down =>
      have hbelow : (v.units : ℝ) ≤ Real.sqrt n := by
        rw [← hscaled, ← hroot]
        exact mul_le_mul_of_nonneg_right hv unitsPerOne_pos.le
      have hle : v.units ≤ (Nat.sqrt n : Int) := by
        have hfloor := lt_of_le_of_lt hbelow Real.real_sqrt_lt_nat_sqrt_succ
        exact Int.lt_add_one_iff.1 (by exact_mod_cast hfloor)
      show 0 ≤ (halvesOfRoot n : Int) - v.units * (2 : Nat)
      rw [halvesOfRoot]
      split <;> omega
    | up =>
      have habove : Real.sqrt n ≤ (v.units : ℝ) := by
        rw [← hscaled, ← hroot]
        exact mul_le_mul_of_nonneg_right hv unitsPerOne_pos.le
      have hge : (Nat.sqrt n : Int) ≤ v.units := by
        have hfloor := le_trans Real.nat_sqrt_le_real_sqrt habove
        exact_mod_cast hfloor
      show (halvesOfRoot n : Int) - v.units * (2 : Nat) ≤ 0
      rw [halvesOfRoot]
      split
      case isTrue => omega
      case isFalse hinexact =>
        have hne : (Nat.sqrt n : Int) ≠ v.units := by
          intro heq
          apply hinexact
          apply Nat.le_antisymm (Nat.sqrt_le n)
          rw [← heq, Int.cast_natCast, Real.sqrt_le_left (Nat.cast_nonneg _), sq] at habove
          exact_mod_cast habove
        omega
  · exact bounds_of_rank_eq_limit hlimit _

end Direction

/-! ## All roundings -/

namespace Rounding

variable {d : Direction} {a b v : Binary64}

/-- A product or quotient that is not zero and is rounded to a number below the normal ones. -/
def Underflows : Rounding → Prop
  | sum _ _ _ => False
  | product _ a b => a.units * b.units ≠ 0 ∧ (a * b).abs < minNormal
  | quotient _ a b => a.units ≠ 0 ∧ (a / b).abs < minNormal
  | root _ _ => False

theorem side_product (ha : a.isFinite = true) (hb : b.isFinite = true)
    (hnormal : ¬ (product d a b).Underflows) (hv : d.Bounds v (a.toReal * b.toReal)) :
    d.Side v.rank (d.mul a b).rank := by
  rw [mul_eq_getD, ha, hb]
  rw [toReal_mul_eq_ratio] at hv
  refine Direction.side_settled unitsPerOne_pos_nat unitsPerOne_pos_nat (rank_mul ha hb) ?_ ?_ hv
  · intro hfinite
    rw [rank_fusedMulAdd ha hb ((isFinite_neg _).trans hfinite), units_neg, Int.neg_mul,
      ← Int.sub_eq_add_neg]
  · rintro ⟨hnonzero, hsmall⟩
    rw [Bool.and_eq_true, Bool.not_eq_true', Bool.not_eq_true', ← Bool.not_eq_true,
      ← Bool.not_eq_true, Direction.beq_zero_iff ha, Direction.beq_zero_iff hb] at hnonzero
    exact hnormal ⟨mul_ne_zero_iff.2 hnonzero, hsmall⟩

theorem side_quotient (ha : a.isFinite = true) (hb : b.isFinite = true) (h0 : b.units ≠ 0)
    (hnormal : ¬ (quotient d a b).Underflows) (hv : d.Bounds v (a.toReal / b.toReal)) :
    d.Side v.rank (d.div a b).rank := by
  rw [div_eq_getD d ha hb]
  rw [toReal_div_eq_ratio a h0] at hv
  refine Direction.side_settled (Int.natAbs_pos.2 h0) unitsPerOne_pos_nat (rank_div ha hb h0) ?_ ?_
    hv
  · intro hfinite
    exact rank_quotientError ha hb hfinite h0
  · rintro ⟨hnonzero, hsmall⟩
    rw [Bool.not_eq_true', ← Bool.not_eq_true, Direction.beq_zero_iff ha] at hnonzero
    exact hnormal ⟨hnonzero, hsmall⟩

theorem side_root (ha : a.isFinite = true) (hnonneg : 0 ≤ a.rank)
    (hv : d.Bounds v (Real.sqrt a.toReal)) : d.Side v.rank (d.sqrt a).rank := by
  have hfinite := Direction.isFinite_sqrt ha hnonneg
  have hunits : 0 ≤ a.units := by
    have hle := units_le_units_iff (a := zero) (b := a)
    rw [units_zero, rank_zero] at hle
    exact hle.2 hnonneg
  have hside : d.Side v.rank a.sqrt.rank := by
    rw [rank_sqrt_of_nonneg ha hnonneg]
    exact Direction.side_nearestRank Nat.two_pos (Direction.bounds_halvesOfRoot hunits hv)
  rw [Direction.sqrt_eq_adjust ha hnonneg, Direction.adjust_of_finite hfinite, ← Direction.correct]
  apply Direction.side_correct hv hfinite hside
  intro hwrong
  have hdefect : ¬ d.Side 0 (root d a).defect :=
    ((wrongSide_iff unitsPerOne_pos_nat (Direction.rank_rootError ha hnonneg)).1 hwrong).1
  rcases hnonneg.lt_or_eq with hpos | hzero
  · rwa [bounds_sqrt_iff_side ha hpos]
  · -- The root of a zero is exact.
    apply absurd (Direction.side_refl d 0)
    rwa [defect, sqrt_of_rank_eq_zero ha hzero.symm, units_eq_unitsOfRank, ← hzero] at hdefect

/-- A directed operation that does not underflow gives the closest bound of its exact result if
and only if it is not misled. -/
theorem closest_bound_iff {r : Rounding} (h : r.Defined) (hnormal : ¬ r.Underflows) :
    r.direction.Closest r.bound r.exact ↔ ¬ r.Misled := by
  rw [← bounds_bound_iff h]
  constructor
  · exact fun hclosest => hclosest.bounds
  · intro hbounds
    refine ⟨hbounds, ?_⟩
    intro v hv
    cases r with
    | sum d a b => exact Direction.side_add h.1 h.2 hv
    | product d a b => exact side_product h.1 h.2 hnormal hv
    | quotient d a b => exact side_quotient h.1 h.2.1 h.2.2 hnormal hv
    | root d a => exact side_root h.1 h.2 hv

end Rounding

namespace Binary64

open Direction

/-- The numbers next to a real: the greatest one that is not above it and the least one that is
not below it, an infinity where there is no finite one. -/
structure Brackets (lower upper : Binary64) (t : ℝ) : Prop where
  greatest : IsGreatest {v : Binary64 | down.Bounds v t} lower
  least : IsLeast {v : Binary64 | up.Bounds v t} upper

/-- Finite numbers strictly below and above a real. -/
structure Surrounds (lower upper : Binary64) (t : ℝ) : Prop where
  finite_lower : lower.isFinite = true
  finite_upper : upper.isFinite = true
  below : lower.toReal < t
  above : t < upper.toReal

/-- Both directions of an operation that neither underflow nor are misled. -/
theorem brackets_of_closest {bound : Direction → Binary64} {t : ℝ}
    (h : ∀ d : Direction, d.Closest (bound d) t) : Brackets (bound down) (bound up) t :=
  ⟨(h down).isGreatest, (h up).isLeast⟩

/-! ## Sums -/

section Sums

variable {a b x : Binary64}

theorem abs_toReal_lt_maxFinite_iff :
    |b.toReal| < maxFinite.toReal ↔ b.units.natAbs < maxUnits := by
  have hmax : maxFinite.units = (maxUnits : Int) := by decide +kernel
  rw [abs_toReal, toReal, hmax, Int.cast_natCast, div_lt_div_iff_of_pos_right unitsPerOne_pos,
    Nat.cast_lt]

/-- An infinity is one of two words. -/
theorem eq_of_isInfinite (hx : x.isInfinite = true) : x = posInf ∨ x = negInf := by
  have hindex := isInfinite_iff.1 hx
  cases hneg : x.negative with
  | false => exact .inl (eq_of_negative_eq_of_index_eq hneg hindex)
  | true => exact .inr (eq_of_negative_eq_of_index_eq hneg hindex)

theorem add_of_overflow (d : Direction) (ha : a.isFinite = true) (hb : b.isFinite = true)
    (hs : (a + b).isInfinite = true) : d.add a b = d.saturate (a + b) := by
  rw [Direction.add]
  rw [if_pos hs, ha, hb, Bool.and_self, if_pos rfl]

/-- The first correction of a finite sum does not overflow if the second summand leaves room. -/
theorem isFinite_correction (ha : a.isFinite = true) (hb : b.isFinite = true)
    (hmax : b.units.natAbs < maxUnits) (hs : (a + b).isFinite = true) :
    (a + b - a).isFinite = true := by
  have herror := natAbs_sub_units_le hs (rank_add ha hb)
  apply isFinite_of_lt_halfway (rank_sub hs ha)
  omega

theorem closest_add (ha : a.isFinite = true) (hb : b.isFinite = true)
    (hmax : b.units.natAbs < maxUnits) (d : Direction) :
    d.Closest (d.add a b) (a.toReal + b.toReal) := by
  apply (Rounding.closest_bound_iff (r := .sum d a b) ⟨ha, hb⟩ id).2
  intro hmisled
  have hs : (a + b).isFinite = true := hmisled.finite
  have hlost : (a + b - a).isInfinite = true := hmisled.blind
  rw [not_infinite_of_finite (isFinite_correction ha hb hmax hs)] at hlost
  cases hlost

/-- Sums are exact and tight away from the largest finite number. If the second summand is finite
and below it in magnitude, the error that is recovered from a finite sum is the exact one. In all
cases the sum rounded down is the greatest number that is not above the exact sum and the sum
rounded up the least that is not below it; a sum that overflows gives the largest finite number
and the infinity beyond it. -/
theorem two_sum_exact_and_tight (ha : a.isFinite = true) (hb : b.isFinite = true)
    (hmax : |b.toReal| < maxFinite.toReal) :
    ((a + b).isFinite = true →
        (twoSumError a b (a + b)).isFinite = true ∧
          (twoSumError a b (a + b)).toReal = a.toReal + b.toReal - (a + b).toReal) ∧
      Brackets (down.add a b) (up.add a b) (a.toReal + b.toReal) ∧
      ((a + b).isInfinite = true →
        (a + b = posInf ∧ down.add a b = maxFinite ∧ up.add a b = posInf) ∨
          (a + b = negInf ∧ down.add a b = negInf ∧ up.add a b = -maxFinite)) := by
  rw [abs_toReal_lt_maxFinite_iff] at hmax
  refine ⟨?_, brackets_of_closest (closest_add ha hb hmax), ?_⟩
  · intro hs
    obtain ⟨hfinite, hunits⟩ :=
      units_twoSumError ha hb hs (isFinite_correction ha hb hmax hs)
    refine ⟨hfinite, ?_⟩
    rw [toReal, hunits, toReal, toReal, toReal]
    push_cast
    ring
  · intro hs
    rw [add_of_overflow down ha hb hs, add_of_overflow up ha hb hs]
    rcases eq_of_isInfinite hs with hpos | hneg
    · rw [hpos]
      exact .inl (by decide)
    · rw [hneg]
      exact .inr (by decide)

/-- The number nearest to a tenth. -/
def tenth : Binary64 :=
  ⟨0x3fb999999999999a⟩

/-- The number nearest to a fifth. -/
def fifth : Binary64 :=
  ⟨0x3fc999999999999a⟩

/-- The number `2^1023`. -/
def topPower : Binary64 :=
  ⟨0x7fe0000000000000⟩

/-- A tenth and a fifth have an inexact sum with an exact error, and the largest finite number
overflows when `2^1023` is added to it. -/
theorem tenth_add_fifth_tight :
    ((twoSumError tenth fifth (tenth + fifth)).toReal =
        tenth.toReal + fifth.toReal - (tenth + fifth).toReal ∧
      Brackets (down.add tenth fifth) (up.add tenth fifth) (tenth.toReal + fifth.toReal)) ∧
      down.add maxFinite topPower = maxFinite ∧ up.add maxFinite topPower = posInf := by
  obtain ⟨herror, htight, -⟩ := two_sum_exact_and_tight (a := tenth) (b := fifth) (by decide)
    (by decide) (abs_toReal_lt_maxFinite_iff.2 (by decide +kernel))
  obtain ⟨-, -, hoverflow⟩ := two_sum_exact_and_tight (a := maxFinite) (b := topPower)
    (by decide) (by decide) (abs_toReal_lt_maxFinite_iff.2 (by decide +kernel))
  refine ⟨⟨(herror (by decide +kernel)).2, htight⟩, ?_⟩
  rcases hoverflow (by decide +kernel) with ⟨-, hbounds⟩ | ⟨hneg, -⟩
  · exact hbounds
  · exact absurd hneg (by decide +kernel)

end Sums

/-! ## Products, quotients and roots -/

section Fused

variable {d : Direction} {a b x : Binary64} {num : Int} {den : Nat}

/-- A ratio is at least a power of two when its numerator is large enough. -/
theorem zpow_le_abs_ratio_iff {e : ℤ} {k : Nat} (h : e + 1074 = k) (hden : 0 < den) :
    (2 : ℝ) ^ e ≤ |ratio num den| ↔ 2 ^ k * den ≤ num.natAbs := by
  have hdenR : (0 : ℝ) < (den : ℝ) := Nat.cast_pos.2 hden
  have hscale : (2 : ℝ) ^ e * ((den : ℝ) * unitsPerOne) = ((2 ^ k * den : Nat) : ℝ) := by
    rw [mul_comm (den : ℝ), ← mul_assoc, cast_unitsPerOne, ← zpow_add₀ two_ne_zero, h]
    push_cast
    rw [zpow_natCast]
  have habs : |ratio num den| = (num.natAbs : ℝ) / ((den : ℝ) * unitsPerOne) := by
    rw [ratio, abs_div, abs_of_pos (mul_pos hdenR unitsPerOne_pos), Nat.cast_natAbs, Int.cast_abs]
  rw [habs, le_div_iff₀ (mul_pos hdenR unitsPerOne_pos), hscale, Nat.cast_le]

/-- A ratio of at least `2^-1022` is not rounded to a subnormal number. -/
theorem not_abs_lt_minNormal (hden : 0 < den) (hr : x.rank = nearestRank num den)
    (h : (2 : ℝ) ^ (-1022 : ℤ) ≤ |ratio num den|) : ¬ x.abs < minNormal := by
  rw [zpow_le_abs_ratio_iff (k := 52) (by norm_num) hden] at h
  have hunits : unitsOfRank minNormal.rank = ((2 ^ 52 : Nat) : Int) := by decide
  have hself := nearestRank_unitsOfRank (r := minNormal.rank) hden (by decide)
  have hindex := nearestRank_signed false num.natAbs hden
  rw [if_neg Bool.false_ne_true, if_neg Bool.false_ne_true] at hindex
  -- The least normal number is rounded to itself, and rounding keeps the order.
  have hmono : nearestRank (unitsOfRank minNormal.rank * den) den ≤
      nearestRank (num.natAbs : Int) den := by
    apply nearestRank_mono hden
    rw [hunits]
    exact_mod_cast h
  rw [hself, hindex, ← natAbs_nearestRank num hden, ← hr] at hmono
  rw [abs_lt_minNormal_iff (not_nan_of_nearest hden hr)]
  exact not_lt.2 hmono

theorem abs_lt_minNormal_iff_toReal (hx : x.isNaN = false) :
    x.abs < minNormal ↔ |x.toReal| < (2 : ℝ) ^ (-1022 : ℤ) := by
  have hrank : minNormal.rank = ((binade : Nat) : Int) := by decide
  have hunits : magnitudeUnits binade = 2 ^ 52 := by decide
  rw [← not_le, zpow_le_abs_toReal_iff (k := 52) (by norm_num), Nat.not_le, natAbs_units,
    index_eq_natAbs_rank, abs_lt_minNormal_iff hx, hrank, ← hunits,
    magnitudeUnits_strictMono.lt_iff_lt, Int.ofNat_lt]

/-- The neighbours of a subnormal result enclose the exact one strictly. -/
theorem surrounds_steps (hden : 0 < den) (hr : x.rank = nearestRank num den)
    (hsmall : x.abs < minNormal) : Surrounds (down.step x) (up.step x) (ratio num den) := by
  have hdenR : (0 : ℝ) < (den : ℝ) := Nat.cast_pos.2 hden
  have hrank := (abs_lt_minNormal_iff (not_nan_of_nearest hden hr)).1 hsmall
  have hroom : minNormal.rank + 1 < (infinityIndex : Int) := by decide
  have hfinite : x.isFinite = true := by
    rw [isFinite_iff_rank]
    omega
  have hdown : (down.step x).rank = x.rank - 1 := rank_step hfinite
  have hup : (up.step x).rank = x.rank + 1 := rank_step hfinite
  refine ⟨?_, ?_, ?_, ?_⟩
  · rw [isFinite_iff_rank]
    omega
  · rw [isFinite_iff_rank]
    omega
  · have hlt := unitsOfRank_pred_lt num hden (by omega)
    rw [← hr, ← hdown, ← units_eq_unitsOfRank] at hlt
    rw [toReal, div_lt_iff₀ unitsPerOne_pos, ratio_mul_unitsPerOne, lt_div_iff₀ hdenR]
    exact_mod_cast hlt
  · have hlt := lt_unitsOfRank_succ num hden (by omega)
    rw [← hr, ← hup, ← units_eq_unitsOfRank] at hlt
    rw [toReal, lt_div_iff₀ unitsPerOne_pos, ratio_mul_unitsPerOne, div_lt_iff₀ hdenR]
    exact_mod_cast hlt

/-- A subnormal result with a non-zero exact value is settled by a step. -/
theorem settle?_of_underflow (hx : x.isNaN = false) (hsmall : x.abs < minNormal) :
    d.settle? x true true = some (d.step x) := by
  have hfinite : x.isFinite = true := by
    have hrank := (abs_lt_minNormal_iff hx).1 hsmall
    have hroom : minNormal.rank < (infinityIndex : Int) := by decide
    rw [isFinite_iff_rank]
    omega
  rw [settle?, hx, not_infinite_of_finite hfinite, decide_eq_true hsmall]
  rfl

theorem closest_mul (ha : a.isFinite = true) (hb : b.isFinite = true)
    (h : (2 : ℝ) ^ (-969 : ℤ) ≤ |a.toReal * b.toReal|) (d : Direction) :
    d.Closest (d.mul a b) (a.toReal * b.toReal) := by
  apply (Rounding.closest_bound_iff (r := .product d a b) ⟨ha, hb⟩ ?_).2
  · intro hmisled
    have hmagnitude := Rounding.magnitude_of_misled (by simp) hmisled
    exact absurd hmagnitude.2 (not_lt.2 h)
  · rintro ⟨-, hsmall⟩
    rw [toReal_mul_eq_ratio] at h
    have hweaker : (2 : ℝ) ^ (-1022 : ℤ) ≤ (2 : ℝ) ^ (-969 : ℤ) :=
      zpow_le_zpow_right₀ one_le_two (by norm_num)
    exact not_abs_lt_minNormal unitsPerOne_pos_nat (rank_mul ha hb) (hweaker.trans h) hsmall

theorem closest_div (ha : a.isFinite = true) (hb : b.isFinite = true) (h0 : b.toReal ≠ 0)
    (h : (2 : ℝ) ^ (-969 : ℤ) ≤ |a.toReal|)
    (hnormal : (2 : ℝ) ^ (-1022 : ℤ) ≤ |a.toReal / b.toReal|) (d : Direction) :
    d.Closest (d.div a b) (a.toReal / b.toReal) := by
  have hunits : b.units ≠ 0 := mt toReal_eq_zero_iff.2 h0
  apply (Rounding.closest_bound_iff (r := .quotient d a b) ⟨ha, hb, hunits⟩ ?_).2
  · intro hmisled
    have hmagnitude := Rounding.magnitude_of_misled (by simp) hmisled
    exact absurd hmagnitude.2 (not_lt.2 h)
  · rintro ⟨-, hsmall⟩
    rw [toReal_div_eq_ratio a hunits] at hnormal
    exact not_abs_lt_minNormal (Int.natAbs_pos.2 hunits) (rank_div ha hb hunits) hnormal hsmall

theorem closest_sqrt (ha : a.isFinite = true) (h : (2 : ℝ) ^ (-969 : ℤ) ≤ a.toReal)
    (d : Direction) : d.Closest (d.sqrt a) (Real.sqrt a.toReal) := by
  have hpos : 0 < a.toReal := lt_of_lt_of_le (zpow_pos two_pos _) h
  apply (Rounding.closest_bound_iff (r := .root d a) ⟨ha, (toReal_pos_iff.1 hpos).le⟩ id).2
  intro hmisled
  have hmagnitude := Rounding.magnitude_of_misled (by simp) hmisled
  exact absurd hmagnitude.2 (not_lt.2 (h.trans (le_abs_self _)))

theorem surrounds_mul (ha : a.isFinite = true) (hb : b.isFinite = true)
    (hne : a.toReal * b.toReal ≠ 0) (hsmall : |(a * b).toReal| < (2 : ℝ) ^ (-1022 : ℤ)) :
    Surrounds (down.mul a b) (up.mul a b) (a.toReal * b.toReal) := by
  have hr := rank_mul ha hb
  have hnan := not_nan_of_nearest unitsPerOne_pos_nat hr
  rw [← abs_lt_minNormal_iff_toReal hnan] at hsmall
  obtain ⟨hna, hnb⟩ := mul_ne_zero_iff.1 hne
  have hstep : ∀ d : Direction, d.mul a b = d.step (a * b) := by
    intro d
    have hza : (a == zero) = false := by
      rw [← Bool.not_eq_true, Direction.beq_zero_iff ha, ← toReal_eq_zero_iff]
      exact hna
    have hzb : (b == zero) = false := by
      rw [← Bool.not_eq_true, Direction.beq_zero_iff hb, ← toReal_eq_zero_iff]
      exact hnb
    rw [Rounding.mul_eq_getD, ha, hb, hza, hzb]
    exact congrArg (Option.getD · _) (settle?_of_underflow hnan hsmall)
  rw [hstep down, hstep up, toReal_mul_eq_ratio]
  exact surrounds_steps unitsPerOne_pos_nat hr hsmall

theorem surrounds_div (ha : a.isFinite = true) (hb : b.isFinite = true)
    (hne : a.toReal / b.toReal ≠ 0) (hsmall : |(a / b).toReal| < (2 : ℝ) ^ (-1022 : ℤ)) :
    Surrounds (down.div a b) (up.div a b) (a.toReal / b.toReal) := by
  obtain ⟨hna, hnb⟩ := div_ne_zero_iff.1 hne
  have hunits : b.units ≠ 0 := mt toReal_eq_zero_iff.2 hnb
  have hr := rank_div ha hb hunits
  have hden := Int.natAbs_pos.2 hunits
  have hnan := not_nan_of_nearest hden hr
  rw [← abs_lt_minNormal_iff_toReal hnan] at hsmall
  have hstep : ∀ d : Direction, d.div a b = d.step (a / b) := by
    intro d
    have hza : (a == zero) = false := by
      rw [← Bool.not_eq_true, Direction.beq_zero_iff ha, ← toReal_eq_zero_iff]
      exact hna
    rw [Rounding.div_eq_getD d ha hb, hza]
    exact congrArg (Option.getD · _) (settle?_of_underflow hnan hsmall)
  rw [hstep down, hstep up, toReal_div_eq_ratio a hunits]
  exact surrounds_steps hden hr hsmall

/-- Products, quotients and roots are tight where their residuals cannot vanish, and strict where
they underflow. The products of finite numbers in both directions are the numbers next to the
exact product if that is at least `2^-969` in magnitude; the quotients are if the dividend is and
the quotient is at least `2^-1022`; the roots are if the radicand is at least `2^-969`. A product
or quotient that is rounded to a number below `2^-1022`, and is not zero, lies strictly between
the two results. -/
theorem fused_roundings_tight_or_strict (ha : a.isFinite = true) (hb : b.isFinite = true) :
    ((2 : ℝ) ^ (-969 : ℤ) ≤ |a.toReal * b.toReal| →
        Brackets (down.mul a b) (up.mul a b) (a.toReal * b.toReal)) ∧
      (b.toReal ≠ 0 → (2 : ℝ) ^ (-969 : ℤ) ≤ |a.toReal| →
        (2 : ℝ) ^ (-1022 : ℤ) ≤ |a.toReal / b.toReal| →
          Brackets (down.div a b) (up.div a b) (a.toReal / b.toReal)) ∧
      ((2 : ℝ) ^ (-969 : ℤ) ≤ a.toReal →
        Brackets (down.sqrt a) (up.sqrt a) (Real.sqrt a.toReal)) ∧
      (a.toReal * b.toReal ≠ 0 → |(a * b).toReal| < (2 : ℝ) ^ (-1022 : ℤ) →
        Surrounds (down.mul a b) (up.mul a b) (a.toReal * b.toReal)) ∧
      (a.toReal / b.toReal ≠ 0 → |(a / b).toReal| < (2 : ℝ) ^ (-1022 : ℤ) →
        Surrounds (down.div a b) (up.div a b) (a.toReal / b.toReal)) := by
  refine ⟨?_, ?_, ?_, surrounds_mul ha hb, surrounds_div ha hb⟩
  · exact fun h => brackets_of_closest (closest_mul ha hb h)
  · exact fun h0 h hnormal => brackets_of_closest (closest_div ha hb h0 h hnormal)
  · exact fun h => brackets_of_closest (closest_sqrt ha h)

/-- The number three. -/
def three : Binary64 :=
  ⟨0x4008000000000000⟩

/-- The number `2^-600`, whose square underflows. -/
def tiny : Binary64 :=
  ⟨0x1a70000000000000⟩

/-- The number `2^600`. -/
def huge : Binary64 :=
  ⟨0x6570000000000000⟩

/-- A tenth has the closest bounds of its product with three, of its quotient by three and of its
root. The square of `2^-600`, and its quotient by `2^600`, are rounded to zero and lie strictly
between the two results. -/
theorem tenth_and_three_tight :
    (Brackets (down.mul tenth three) (up.mul tenth three) (tenth.toReal * three.toReal) ∧
        Brackets (down.div tenth three) (up.div tenth three) (tenth.toReal / three.toReal) ∧
        Brackets (down.sqrt tenth) (up.sqrt tenth) (Real.sqrt tenth.toReal)) ∧
      Surrounds (down.mul tiny tiny) (up.mul tiny tiny) (tiny.toReal * tiny.toReal) ∧
        Surrounds (down.div tiny huge) (up.div tiny huge) (tiny.toReal / huge.toReal) := by
  obtain ⟨hmul, hdiv, hsqrt, -, -⟩ :=
    fused_roundings_tight_or_strict (a := tenth) (b := three) (by decide) (by decide)
  obtain ⟨-, -, -, hsquare, -⟩ :=
    fused_roundings_tight_or_strict (a := tiny) (b := tiny) (by decide) (by decide)
  obtain ⟨-, -, -, -, hquotient⟩ :=
    fused_roundings_tight_or_strict (a := tiny) (b := huge) (by decide) (by decide)
  have htenth : (2 : ℝ) ^ (-969 : ℤ) ≤ |tenth.toReal| :=
    (zpow_le_abs_toReal_iff (k := 105) (by norm_num)).2 (by decide +kernel)
  have hpos : 0 < tenth.toReal := toReal_pos_iff.2 (by decide)
  have htiny : tiny.toReal ≠ 0 := mt toReal_eq_zero_iff.1 (by decide +kernel)
  have hhuge : huge.toReal ≠ 0 := mt toReal_eq_zero_iff.1 (by decide +kernel)
  refine ⟨⟨hmul ?_, hdiv ?_ htenth ?_, hsqrt ?_⟩, hsquare ?_ ?_, hquotient ?_ ?_⟩
  · rw [toReal_mul_eq_ratio, zpow_le_abs_ratio_iff (k := 105) (by norm_num) unitsPerOne_pos_nat]
    decide +kernel
  · exact mt toReal_eq_zero_iff.1 (by decide +kernel)
  · rw [toReal_div_eq_ratio _ (by decide +kernel),
      zpow_le_abs_ratio_iff (k := 52) (by norm_num) (by decide +kernel)]
    decide +kernel
  · rwa [abs_of_pos hpos] at htenth
  · exact mul_ne_zero htiny htiny
  · exact (abs_lt_minNormal_iff_toReal (by decide +kernel)).1 (by decide +kernel)
  · exact div_ne_zero htiny hhuge
  · exact (abs_lt_minNormal_iff_toReal (by decide +kernel)).1 (by decide +kernel)

end Fused

end Binary64

end Paving
