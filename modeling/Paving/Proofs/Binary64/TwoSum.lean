import Paving.Proofs.Binary64.Rounded

/-!
# The error of a sum

The rounding error of a sum of two numbers is itself a number, and `twoSumError`
recovers it by rounded sums alone. The theory is about whole numbers of units:
`Fits e z` says that `z` is a multiple of the step `2^e` with a significand of 53
bits, and `RoundsTo e n y` that `y` is `n` rounded to a multiple of that step.

The first correction `s - a` is exact unless the second summand has the larger
step (`fits_sub_of_le`). When it is not exact, everything after it is
(`representable_corrections`), so the two parts of the error add up to the whole
(`units_twoSumError`). All this holds as long as `s - a` does not overflow; when it
does, the recovered error is a NaN (`isNaN_twoSumError`).
-/

set_option autoImplicit false

namespace Paving

namespace Binary64

/-! ## Whole numbers with a step -/

/-- A multiple of the step `2^e` whose significand has at most 53 bits. -/
def Fits (e : Nat) (z : Int) : Prop :=
  ((2 ^ e : Nat) : Int) ∣ z ∧ z.natAbs ≤ 2 ^ 53 * 2 ^ e

/-- The step of `z` is `2^e`, which is the least one unless the significand is
full. -/
structure HasStep (e : Nat) (z : Int) : Prop where
  dvd : ((2 ^ e : Nat) : Int) ∣ z
  le : z.natAbs ≤ (2 ^ 53 - 1) * 2 ^ e
  normal : e = 0 ∨ 2 ^ 52 * 2 ^ e ≤ z.natAbs

/-- The whole number `n` is rounded to the multiple `y` of the step `2^e`. -/
structure RoundsTo (e : Nat) (n y : Int) : Prop where
  dvd : ((2 ^ e : Nat) : Int) ∣ y
  le : y.natAbs ≤ 2 ^ 53 * 2 ^ e
  lt : n.natAbs < 2 ^ 53 * 2 ^ e
  normal : e = 0 ∨ 2 ^ 52 * 2 ^ e ≤ n.natAbs
  near : 2 * (n - y).natAbs ≤ 2 ^ e

theorem pow_add_le {m k : Nat} (j : Nat) (h : m + j ≤ k) : 2 ^ j * 2 ^ m ≤ 2 ^ k := by
  rw [← Nat.pow_add, Nat.add_comm]
  exact Nat.pow_le_pow_right Nat.two_pos h

theorem pow_dvd {m k : Nat} (h : m ≤ k) : ((2 ^ m : Nat) : Int) ∣ ((2 ^ k : Nat) : Int) :=
  Int.natCast_dvd_natCast.2 (Nat.pow_dvd_pow 2 h)

theorem HasStep.fits {e : Nat} {z : Int} (h : HasStep e z) : Fits e z := by
  refine ⟨h.dvd, ?_⟩
  have := h.le
  omega

namespace RoundsTo

variable {e g : Nat} {n y z : Int}

/-- No other multiple of the step is nearer. -/
theorem nearest_of_dvd (h : RoundsTo e n y) (hz : ((2 ^ e : Nat) : Int) ∣ z) :
    (n - y).natAbs ≤ (n - z).natAbs := by
  by_contra hlt
  have hnear := h.near
  have hdvd : 2 ^ e ∣ (z - y).natAbs := Int.natCast_dvd.1 (Int.dvd_sub hz h.dvd)
  have hzero := Nat.eq_zero_of_dvd_of_lt hdvd (by omega)
  have heq : z = y := by omega
  rw [heq] at hlt
  exact hlt (Nat.le_refl _)

/-- No number with a significand of 53 bits is nearer. -/
theorem nearest (h : RoundsTo e n y) (hz : Fits g z) : (n - y).natAbs ≤ (n - z).natAbs := by
  by_cases hge : e ≤ g
  · exact h.nearest_of_dvd (Int.dvd_trans (pow_dvd hge) hz.1)
  · -- With a smaller step `z` is no larger than the least multiple with a full significand.
    have hsteps := pow_add_le 1 (show g + 1 ≤ e by omega)
    have hz' := hz.2
    have hn : 2 ^ 52 * 2 ^ e ≤ n.natAbs := by
      rcases h.normal with h0 | h1
      · omega
      · exact h1
    have hedge : ((2 ^ e : Nat) : Int) ∣ n.sign * ((2 ^ 52 * 2 ^ e : Nat) : Int) :=
      Int.dvd_mul_of_dvd_right (Int.natCast_dvd_natCast.2 (Nat.dvd_mul_left _ _))
    have hle := h.nearest_of_dvd hedge
    rcases Int.lt_trichotomy n 0 with hneg | h0 | hpos
    · rw [Int.sign_eq_neg_one_of_neg hneg] at hle
      omega
    · rw [h0] at hn
      have := Nat.two_pow_pos e
      omega
    · rw [Int.sign_eq_one_of_pos hpos] at hle
      omega

theorem neg (h : RoundsTo e n y) : RoundsTo e (-n) (-y) := by
  have hnear := h.near
  refine ⟨Int.dvd_neg.2 h.dvd, ?_, ?_, ?_, by omega⟩
  · rw [Int.natAbs_neg]
    exact h.le
  · rw [Int.natAbs_neg]
    exact h.lt
  · rw [Int.natAbs_neg]
    exact h.normal

theorem eq_of_dvd (h : RoundsTo e n y) (hn : ((2 ^ e : Nat) : Int) ∣ n) : y = n := by
  have := h.nearest_of_dvd hn
  omega

theorem eq_of_fits (h : RoundsTo e n y) (hn : Fits g n) : y = n := by
  have := h.nearest hn
  omega

end RoundsTo

/-! ## The sum of two numbers -/

section Sum

variable {a b s v : Int} {ea eb e f : Nat}

/-- A sum with a step no larger than those of its summands is exact. -/
theorem eq_add_of_le (ha : HasStep ea a) (hb : HasStep eb b) (hs : RoundsTo e (a + b) s)
    (hea : e ≤ ea) (heb : e ≤ eb) : s = a + b :=
  hs.eq_of_dvd (Int.dvd_add (Int.dvd_trans (pow_dvd hea) ha.dvd)
    (Int.dvd_trans (pow_dvd heb) hb.dvd))

/-- The error of a sum has a significand of 53 bits. -/
theorem fits_error (ha : HasStep ea a) (hb : HasStep eb b) (hs : RoundsTo e (a + b) s) :
    ∃ g, Fits g (a + b - s) ∧ (a + b - s).natAbs ≤ b.natAbs := by
  have hlea := hs.nearest hb.fits
  have hleb := hs.nearest ha.fits
  have hb' : (a + b - a).natAbs = b.natAbs := by
    congr 1
    omega
  have ha' : (a + b - b).natAbs = a.natAbs := by
    congr 1
    omega
  rw [ha'] at hlea
  rw [hb'] at hleb
  have hfa := ha.fits.2
  have hfb := hb.fits.2
  -- A sum with a smaller step than both summands is exact.
  rcases Nat.lt_or_ge e (min ea eb) with hlt | hge
  · refine ⟨0, ?_⟩
    have hexact := eq_add_of_le ha hb hs (by omega) (by omega)
    rw [hexact, Int.sub_self]
    exact ⟨⟨Int.dvd_zero _, by omega⟩, by omega⟩
  · -- The error is a multiple of the smaller step and no larger than that summand.
    refine ⟨min ea eb, ⟨?_, ?_⟩, hleb⟩
    · refine Int.dvd_sub (Int.dvd_add ?_ ?_) (Int.dvd_trans (pow_dvd hge) hs.dvd)
      · exact Int.dvd_trans (pow_dvd (Nat.min_le_left _ _)) ha.dvd
      · exact Int.dvd_trans (pow_dvd (Nat.min_le_right _ _)) hb.dvd
    · rcases Nat.le_total ea eb with h | h
      · rw [Nat.min_eq_left h]
        omega
      · rw [Nat.min_eq_right h]
        omega

/-- Taking off the summand with the larger step is exact. -/
theorem fits_sub_of_le (ha : HasStep ea a) (hb : HasStep eb b) (hs : RoundsTo e (a + b) s)
    (hle : eb ≤ ea) : ∃ g, Fits g (s - a) := by
  have hnear := hs.near
  have hla := ha.le
  have hlb := hb.le
  have hpow := pow_add_le 0 (show eb + 0 ≤ ea by omega)
  -- With a step above that of `b` the sum was rounded; otherwise it is exact.
  rcases Nat.lt_or_ge eb e with hlt | hge
  · have hupper : e ≤ ea + 1 := by
      by_contra hgt
      have hsteps := pow_add_le 2 (show ea + 2 ≤ e by omega)
      have hn : 2 ^ 52 * 2 ^ e ≤ (a + b).natAbs := hs.normal.resolve_left (by omega)
      have hpos := Nat.two_pow_pos ea
      omega
    have hsteps := pow_add_le 1 (show eb + 1 ≤ e by omega)
    -- The step of the sum exceeds that of `a` by at most one binary digit.
    rcases Nat.lt_or_ge ea e with hstep | hstep
    · have heq : e = ea + 1 := by omega
      rw [heq, Nat.pow_succ] at hnear
      refine ⟨ea, Int.dvd_sub (Int.dvd_trans (pow_dvd (by omega)) hs.dvd) ha.dvd, ?_⟩
      omega
    · refine ⟨e, Int.dvd_sub hs.dvd (Int.dvd_trans (pow_dvd hstep) ha.dvd), ?_⟩
      omega
  · rw [eq_add_of_le ha hb hs (by omega) hge]
    have heq : a + b - a = b := by omega
    rw [heq]
    exact ⟨eb, hb.fits⟩

/-- How the steps are related when the first correction is not exact. -/
structure Inexact (ea eb e f : Nat) : Prop where
  lt_sum : ea < e
  lt_correction : ea < f
  sum_le : e ≤ eb + 1
  correction_le : f ≤ eb
  le_correction : eb ≤ f + 1
  correction_le_sum : f ≤ e + 1

theorem inexact_of_not_fits (ha : HasStep ea a) (hb : HasStep eb b) (hs : RoundsTo e (a + b) s)
    (hv : RoundsTo f (s - a) v) (hfits : ¬ ∃ g, Fits g (s - a)) : Inexact ea eb e f := by
  have hla := ha.le
  have hlb := hb.le
  have hnear := hs.near
  have hls := hs.le
  have hpos := Nat.two_pow_pos ea
  have hab : ea < eb := by
    by_contra h
    exact hfits (fits_sub_of_le ha hb hs (by omega))
  -- The sum was rounded, and so was the correction: both steps exceed that of `a`.
  have hea : ea < e := by
    by_contra h
    refine hfits ⟨eb, ?_⟩
    have heq : a + b - a = b := by omega
    rw [eq_add_of_le ha hb hs (by omega) (by omega), heq]
    exact hb.fits
  have hfa : ea < f := by
    by_contra h
    refine hfits ⟨f, Int.dvd_trans (pow_dvd (Nat.le_of_not_lt h)) ?_, Nat.le_of_lt hv.lt⟩
    exact Int.dvd_sub (Int.dvd_trans (pow_dvd (by omega)) hs.dvd) ha.dvd
  -- So neither has the least step, and both have full significands, as has `b`.
  have hstepsab := pow_add_le 1 (show ea + 1 ≤ eb by omega)
  have hstepsae := pow_add_le 1 (show ea + 1 ≤ e by omega)
  have hn : 2 ^ 52 * 2 ^ e ≤ (a + b).natAbs := hs.normal.resolve_left (by omega)
  have hd : 2 ^ 52 * 2 ^ f ≤ (s - a).natAbs := hv.normal.resolve_left (by omega)
  have hlt := hv.lt
  have hbig : 2 ^ 52 * 2 ^ eb ≤ b.natAbs := hb.normal.resolve_left (by omega)
  have heb : e ≤ eb + 1 := by
    by_contra h
    have := pow_add_le 2 (show eb + 2 ≤ e by omega)
    omega
  have hpoweb := pow_add_le 0 (show e + 0 ≤ eb + 1 by omega)
  rw [Nat.pow_succ] at hpoweb
  refine ⟨hea, hfa, heb, ?_, ?_, ?_⟩
  · -- A larger step leaves a single candidate, the next power of two, which fits.
    by_contra h
    have := pow_add_le 1 (show eb + 1 ≤ f by omega)
    have hedge : (s - a).natAbs = 2 ^ 53 * 2 ^ eb := by omega
    refine hfits ⟨eb, Int.natCast_dvd.2 ?_, Nat.le_of_eq hedge⟩
    rw [hedge]
    exact Nat.dvd_mul_left _ _
  · by_contra h
    have := pow_add_le 2 (show f + 2 ≤ eb by omega)
    omega
  · by_contra h
    have := pow_add_le 2 (show e + 2 ≤ f by omega)
    omega

/-- The whole number has a significand of 53 bits and is at most the largest one
with the step `2^m`. -/
def Representable (m : Nat) (z : Int) : Prop :=
  (∃ g, Fits g z) ∧ z.natAbs ≤ (2 ^ 53 - 1) * 2 ^ m

theorem HasStep.representable {m : Nat} {z : Int} (h : HasStep e z) (hm : e ≤ m) :
    Representable m z := by
  refine ⟨⟨e, h.fits⟩, Nat.le_trans h.le ?_⟩
  exact Nat.mul_le_mul_left _ (Nat.pow_le_pow_right Nat.two_pos hm)

/-- The error of a sum is representable. -/
theorem representable_error (ha : HasStep ea a) (hb : HasStep eb b)
    (hs : RoundsTo e (a + b) s) : Representable (max ea eb) (a + b - s) := by
  obtain ⟨g, hfits, hsmall⟩ := fits_error ha hb hs
  refine ⟨⟨g, hfits⟩, Nat.le_trans hsmall ?_⟩
  exact (hb.representable (Nat.le_max_right ea eb)).2

/-- The corrections after an inexact one are exact. -/
theorem representable_of_not_fits (ha : HasStep ea a) (hb : HasStep eb b)
    (hs : RoundsTo e (a + b) s) (hv : RoundsTo f (s - a) v) (hfits : ¬ ∃ g, Fits g (s - a)) :
    Representable eb (s - v) ∧ Representable eb (a - (s - v)) ∧ Representable eb (b - v) := by
  have hsteps := inexact_of_not_fits ha hb hs hv hfits
  have hla := ha.le
  have hnear := hs.near
  have hnear' := hv.near
  -- The sum `s` itself is a candidate for the rounded correction.
  have hcandidate := hv.nearest ⟨hs.dvd, hs.le⟩
  have hstepsae := pow_add_le 1 (show ea + 1 ≤ e from hsteps.lt_sum)
  have hstepsaf := pow_add_le 1 (show ea + 1 ≤ f from hsteps.lt_correction)
  have hstepsfb := pow_add_le 0 (show f + 0 ≤ eb from hsteps.correction_le)
  refine ⟨⟨?_, by omega⟩, ⟨⟨ea, ?_, by omega⟩, by omega⟩, ⟨⟨f, ?_, ?_⟩, ?_⟩⟩
  -- The difference of two multiples is one of the smaller step.
  · rcases Nat.lt_or_ge e f with hlt | hge
    · have heq : f = e + 1 := Nat.le_antisymm hsteps.correction_le_sum hlt
      rw [heq, Nat.pow_succ] at hnear'
      refine ⟨e, Int.dvd_sub hs.dvd (Int.dvd_trans (pow_dvd (by omega)) hv.dvd), ?_⟩
      omega
    · refine ⟨f, Int.dvd_sub (Int.dvd_trans (pow_dvd hge) hs.dvd) hv.dvd, ?_⟩
      omega
  · refine Int.dvd_sub ha.dvd (Int.dvd_sub ?_ ?_)
    · exact Int.dvd_trans (pow_dvd (Nat.le_of_lt hsteps.lt_sum)) hs.dvd
    · exact Int.dvd_trans (pow_dvd (Nat.le_of_lt hsteps.lt_correction)) hv.dvd
  · exact Int.dvd_sub (Int.dvd_trans (pow_dvd hsteps.correction_le) hb.dvd) hv.dvd
  · have hle : e + 0 ≤ f + 2 :=
      Nat.le_trans hsteps.sum_le (Nat.add_le_add_right hsteps.le_correction 1)
    have hstepsef := pow_add_le 0 hle
    rw [Nat.pow_add 2 f 2] at hstepsef
    omega
  · have hstepseb := pow_add_le 0 (show e + 0 ≤ eb + 1 from hsteps.sum_le)
    rw [Nat.pow_succ 2 eb] at hstepseb
    omega

/-- The first correction may be rounded, the ones after it are exact. -/
theorem representable_corrections (ha : HasStep ea a) (hb : HasStep eb b)
    (hs : RoundsTo e (a + b) s) (hv : RoundsTo f (s - a) v) :
    Representable (max ea eb) (s - v) ∧ Representable (max ea eb) (a - (s - v)) ∧
      Representable (max ea eb) (b - v) := by
  by_cases hfits : ∃ g, Fits g (s - a)
  · obtain ⟨g, hg⟩ := hfits
    have hexact := hv.eq_of_fits hg
    have h₁ : s - v = a := by omega
    have h₃ : b - v = a + b - s := by omega
    rw [h₁, h₃, Int.sub_self]
    refine ⟨ha.representable (Nat.le_max_left ea eb), ?_, representable_error ha hb hs⟩
    exact ⟨⟨0, Int.dvd_zero _, Nat.zero_le _⟩, Nat.zero_le _⟩
  · have hmax : ∀ z, Representable eb z → Representable (max ea eb) z := by
      intro z hz
      refine ⟨hz.1, Nat.le_trans hz.2 (Nat.mul_le_mul_left _ ?_)⟩
      exact Nat.pow_le_pow_right Nat.two_pos (Nat.le_max_right ea eb)
    obtain ⟨h₁, h₂, h₃⟩ := representable_of_not_fits ha hb hs hv hfits
    exact ⟨hmax _ h₁, hmax _ h₂, hmax _ h₃⟩

end Sum

/-! ## Words -/

section Words

variable {x a b : Binary64} {n z : Int} {m : Nat}

/-- The exponent of the step of a word. -/
def exponent (x : Binary64) : Nat :=
  x.index / binade - 1

theorem hasStep_units (x : Binary64) : HasStep x.exponent x.units := by
  have hunits := natAbs_units x
  rw [exponent]
  simp only [magnitudeUnits, binade, Nat.shiftLeft_eq] at hunits ⊢
  by_cases hsub : x.index < 4503599627370496
  · have hzero : x.index / 4503599627370496 - 1 = 0 := by omega
    rw [if_pos hsub] at hunits
    rw [hzero]
    exact ⟨Int.one_dvd _, by omega, .inl rfl⟩
  · rw [if_neg hsub] at hunits
    have hmod := Nat.mod_lt x.index (show 0 < 4503599627370496 by decide)
    refine ⟨Int.natCast_dvd.2 ?_, ?_, .inr ?_⟩
    · rw [hunits]
      exact Nat.dvd_mul_left _ _
    · rw [hunits]
      exact Nat.mul_le_mul_right _ (by omega)
    · rw [hunits]
      exact Nat.mul_le_mul_right _ (by omega)

theorem exponent_le (hx : x.isFinite = true) : x.exponent ≤ 2045 := by
  have hindex := isFinite_iff.1 hx
  rw [exponent]
  simp only [infinityIndex, binade] at *
  omega

theorem roundsTo_units_natCast {k : Nat} (hx : x.isFinite = true)
    (h : x.rank = nearestRank (k : Int) 1) : RoundsTo (stepExponent k 1) (k : Int) x.units := by
  have hrank := nearestRank_signed false k Nat.one_pos
  simp only [Bool.false_eq_true, if_false] at hrank
  rw [hrank] at h
  have hindex : nearestIndex k 1 = stepExponent k 1 * binade + significand k 1 := by
    have hfinite := isFinite_iff_rank.1 hx
    rw [h, Int.natAbs_natCast, nearestIndex_eq] at hfinite
    rw [nearestIndex_eq]
    omega
  have hunits : x.units = ((significand k 1 * 2 ^ stepExponent k 1 : Nat) : Int) := by
    rw [units_eq_unitsOfRank, h, unitsOfRank_natCast, hindex, magnitudeUnits_nearest]
  have hnear := nearest_bounds k Nat.one_pos
  rw [Nat.mul_one, Nat.one_mul] at hnear
  have hlt := div_lt_two_pow k 1
  rw [Nat.div_one, Nat.add_comm, Nat.pow_add] at hlt
  have hle := Nat.mul_le_mul_right (2 ^ stepExponent k 1) (significand_le k 1)
  rw [binade_eq] at hle
  rw [hunits]
  refine ⟨Int.natCast_dvd_natCast.2 (Nat.dvd_mul_left _ _), hle, hlt, ?_, by omega⟩
  by_cases h0 : stepExponent k 1 = 0
  · exact .inl h0
  · right
    have hpow := two_pow_le_div h0
    rwa [Nat.div_one, Nat.add_comm, Nat.pow_add] at hpow

/-- A finite rounded result is rounded to a multiple of its step. -/
theorem roundsTo_units (hx : x.isFinite = true) (h : x.rank = nearestRank n 1) :
    RoundsTo (stepExponent n.natAbs 1) n x.units := by
  rcases Int.natAbs_eq n with hpos | hneg
  · rw [hpos] at h
    have hrounds := roundsTo_units_natCast hx h
    rwa [← hpos] at hrounds
  · -- A negative number is rounded as its reflection.
    have hreflected : (-x).rank = nearestRank (n.natAbs : Int) 1 := by
      rw [rank_neg, h, hneg, nearestRank_neg, Int.neg_neg, Int.natAbs_neg, Int.natAbs_natCast]
    have hrounds := roundsTo_units_natCast ((isFinite_neg x).trans hx) hreflected
    rw [units_neg] at hrounds
    have hback := hrounds.neg
    rwa [Int.neg_neg, ← hneg] at hback

/-- The units of the largest finite number. -/
def maxUnits : Nat :=
  magnitudeUnits (infinityIndex - 1)

theorem steps_le_maxUnits (hm : m ≤ 2045) : (2 ^ 53 - 1) * 2 ^ m ≤ maxUnits := by
  have hsteps : magnitudeUnits (m * binade + (2 * binade - 1)) = (2 ^ 53 - 1) * 2 ^ m :=
    magnitudeUnits_steps (by decide) (.inr (by decide))
  rw [← hsteps]
  refine magnitudeUnits_strictMono.monotone ?_
  simp only [binade, infinityIndex]
  omega

theorem natAbs_units_le_maxUnits (hx : x.isFinite = true) : x.units.natAbs ≤ maxUnits := by
  have hindex := isFinite_iff.1 hx
  rw [natAbs_units]
  exact magnitudeUnits_strictMono.monotone (by omega)

theorem unitsOfRank_max : unitsOfRank ((infinityIndex : Int) - 1) = (maxUnits : Int) := by
  decide +kernel

/-- A ratio that is not beyond the largest finite number is not rounded to an
infinity. -/
theorem isFinite_of_natAbs_le {den : Nat} (hden : 0 < den) (h : x.rank = nearestRank n den)
    (hn : n.natAbs ≤ maxUnits * den) : x.isFinite = true := by
  have hle := nearestIndex_le n.natAbs den
  rw [← natAbs_nearestRank n hden] at hle
  rw [isFinite_iff_rank, h]
  refine Nat.lt_of_le_of_ne hle ?_
  intro heq
  have hinf : 0 < infinityIndex := by decide
  have hcast : (maxUnits : Int) * (den : Int) = ((maxUnits * den : Nat) : Int) :=
    (Int.natCast_mul _ _).symm
  rcases Int.natAbs_eq (nearestRank n den) with hpos | hneg
  · have hlt := unitsOfRank_pred_lt n hden (by omega)
    rw [hpos, heq, unitsOfRank_max, hcast] at hlt
    omega
  · have hlt := lt_unitsOfRank_succ n hden (by omega)
    have hsucc : -(infinityIndex : Int) + 1 = -((infinityIndex : Int) - 1) := by omega
    rw [hneg, heq, hsucc, unitsOfRank_neg, unitsOfRank_max, Int.neg_mul, hcast] at hlt
    omega

/-- A representable sum is exact. -/
theorem units_of_representable (hz : Representable m z) (hm : m ≤ 2045)
    (h : x.rank = nearestRank z 1) : x.isFinite = true ∧ x.units = z := by
  obtain ⟨⟨g, hg⟩, hle⟩ := hz
  have hfinite : x.isFinite = true := by
    refine isFinite_of_natAbs_le Nat.one_pos h ?_
    rw [Nat.mul_one]
    exact Nat.le_trans hle (steps_le_maxUnits hm)
  exact ⟨hfinite, (roundsTo_units hfinite h).eq_of_fits hg⟩

/-- The error that is recovered from a finite sum is exact, as long as the first
correction does not overflow. -/
theorem units_twoSumError (ha : a.isFinite = true) (hb : b.isFinite = true)
    (hs : (a + b).isFinite = true) (hv : (a + b - a).isFinite = true) :
    (twoSumError a b (a + b)).isFinite = true ∧
      (twoSumError a b (a + b)).units = a.units + b.units - (a + b).units := by
  -- Each correction rounds a representable number, so it is what it stands for.
  have hmax : max a.exponent b.exponent ≤ 2045 := Nat.max_le.2 ⟨exponent_le ha, exponent_le hb⟩
  have hrounds := roundsTo_units hs (rank_add ha hb)
  obtain ⟨h₁, h₂, h₃⟩ := representable_corrections (hasStep_units a) (hasStep_units b) hrounds
    (roundsTo_units hv (rank_sub hs ha))
  have herror := representable_error (hasStep_units a) (hasStep_units b) hrounds
  obtain ⟨hfinite₁, hunits₁⟩ := units_of_representable h₁ hmax (rank_sub hs hv)
  rw [← hunits₁] at h₂
  obtain ⟨hfinite₂, hunits₂⟩ := units_of_representable h₂ hmax (rank_sub ha hfinite₁)
  obtain ⟨hfinite₃, hunits₃⟩ := units_of_representable h₃ hmax (rank_sub hb hv)
  have hsum : a.units + b.units - (a + b).units =
      (a - (a + b - (a + b - a))).units + (b - (a + b - a)).units := by
    omega
  rw [hsum] at herror ⊢
  exact units_of_representable herror hmax (rank_add hfinite₂ hfinite₃)

theorem rank_twoSumError (ha : a.isFinite = true) (hb : b.isFinite = true)
    (hs : (a + b).isFinite = true) (hv : (a + b - a).isFinite = true) :
    (twoSumError a b (a + b)).rank = nearestRank (a.units + b.units - (a + b).units) 1 := by
  obtain ⟨hfinite, hunits⟩ := units_twoSumError ha hb hs hv
  rw [← hunits, nearestRank_units hfinite]

/-- A sum with an infinity is that infinity. -/
theorem add_infinite (ha : a.isFinite = true) (hb : b.isInfinite = true) : a + b = b := by
  show add a b = b
  rw [add, not_nan_of_finite ha, not_nan_of_infinite hb, not_infinite_of_finite ha, hb]
  rfl

/-- When the first correction overflows, the recovered error is not a number. -/
theorem isNaN_twoSumError {s : Binary64} (ha : a.isFinite = true) (hb : b.isFinite = true)
    (hs : s.isFinite = true) (hv : (s - a).isInfinite = true) :
    (twoSumError a b s).isNaN = true := by
  have hv' : (-(s - a)).isInfinite = true := (isInfinite_neg _).trans hv
  -- From the overflow on every correction is an infinity.
  have hfirst : s - (s - a) = -(s - a) := add_infinite hs hv'
  have hsecond : a - -(s - a) = -(-(s - a)) := add_infinite ha ((isInfinite_neg _).trans hv')
  have hthird : b - (s - a) = -(s - a) := add_infinite hb hv'
  show ((a - (s - (s - a))) + (b - (s - a))).isNaN = true
  rw [hfirst, hsecond, hthird]
  have hv'' : (-(-(s - a))).isInfinite = true := (isInfinite_neg _).trans hv'
  show (add (-(-(s - a))) (-(s - a))).isNaN = true
  rw [add, not_nan_of_infinite hv'', not_nan_of_infinite hv', hv'', hv', negative_neg (-(s - a))]
  -- Infinities of opposite signs have no sum.
  have hnan : nan.isNaN = true := by decide
  cases (-(s - a)).negative with
  | false => exact hnan
  | true => exact hnan

end Words

end Binary64

end Paving
