import Mathlib.Tactic.NormNum
import Paving.Display
import Paving.Proofs.Binary64.Nearest
import Paving.Proofs.Box.Measure
import Paving.Proofs.Decimal.Written

/-!
# What a displayed bound says

The text of a finite bound denotes the bound rounded to the greatest number of
fraction digits, a tie going to the even last digit, and no other number. Rounding
is specified without an algorithm: `RoundsHalfEven t n` says that `n` is at most one
half away from `t`, and even if it is exactly one half away. One integer at most
fits (`RoundsHalfEven.le`), and the one that fits a number of `places` digits is
`decimalUnits`.

The text is the one that steps on characters write, which drop the sign of a zero and pop
the zeros behind the point (`boundText_eq_written`).

The order of rounded numbers follows the order of the numbers, so the texts of an
interval's bounds are in order too, though they may denote the same number.
-/

set_option autoImplicit false

namespace Paving

/-! ## Rounding to an integer, ties to even -/

/-- The integer `n` is nearest to `t`, and even if `t` is halfway between integers. -/
structure RoundsHalfEven (t : ℝ) (n : ℤ) : Prop where
  near : |t - n| ≤ 1 / 2
  even_of_tie : |t - n| = 1 / 2 → Even n

namespace RoundsHalfEven

variable {s t : ℝ} {m n : ℤ}

theorem neg (h : RoundsHalfEven t n) : RoundsHalfEven (-t) (-n) := by
  have habs : |-t - ((-n : ℤ) : ℝ)| = |t - n| := by
    rw [← abs_neg]
    push_cast
    congr 1
    ring
  refine ⟨?_, fun htie => ?_⟩
  · rw [habs]
    exact h.near
  · rw [habs] at htie
    exact (h.even_of_tie htie).neg

/-- Rounding keeps the order, so that it has one result only. -/
theorem le (hs : RoundsHalfEven s m) (ht : RoundsHalfEven t n) (h : s ≤ t) : m ≤ n := by
  by_contra hlt
  -- Results in the wrong order are neighbours, and `s = t` is halfway between them.
  have hsucc : (n : ℝ) + 1 ≤ m := by exact_mod_cast not_le.mp hlt
  have hlower := (abs_le.mp hs.near).1
  have hupper := (abs_le.mp ht.near).2
  have htie_m : s - m = -(1 / 2) := by linarith
  have htie_n : t - n = 1 / 2 := by linarith
  have hm : m = n + 1 := by
    have hreal : (m : ℝ) = n + 1 := by linarith
    exact_mod_cast hreal
  have heven_m : Even m := hs.even_of_tie (by rw [htie_m, abs_neg, abs_of_pos one_half_pos])
  have heven_n : Even n := ht.even_of_tie (by rw [htie_n, abs_of_pos one_half_pos])
  rw [hm, Int.even_add_one] at heven_m
  exact heven_m heven_n

end RoundsHalfEven

/-- A rounded quotient that is half a divisor off is even. -/
theorem even_roundHalfEven_of_tie {num den : Nat} (hden : 0 < den)
    (htie : 2 * num = 2 * (roundHalfEven num den * den) + den ∨
      2 * (roundHalfEven num den * den) = 2 * num + den) : Even (roundHalfEven num den) := by
  have hdiv := Nat.div_add_mod num den
  have hmod := Nat.mod_lt num hden
  have hcomm : den * (num / den) = num / den * den := Nat.mul_comm _ _
  have hsucc : (num / den + 1) * den = num / den * den + den := Nat.succ_mul _ _
  -- Below and above half a divisor the quotient is not half a divisor off.
  rw [roundHalfEven] at htie ⊢
  split at htie
  · omega
  · rename_i hbelow
    split at htie
    · omega
    · rename_i habove
      rw [if_neg hbelow, if_neg habove, Nat.even_iff]
      omega

theorem roundsHalfEven_ratio (num : Nat) {den : Nat} (hden : 0 < den) :
    RoundsHalfEven ((num : ℝ) / den) (roundHalfEven num den) := by
  have hpos : (0 : ℝ) < den := by exact_mod_cast hden
  have hscale : (num : ℝ) / den - ((roundHalfEven num den : ℤ) : ℝ) =
      (2 * num - 2 * (roundHalfEven num den * den)) / (2 * den) := by
    push_cast
    field_simp
  constructor
  · obtain ⟨hupper, hlower⟩ := roundHalfEven_bounds num hden
    have hu : (2 : ℝ) * (roundHalfEven num den * den) ≤ 2 * num + den := by exact_mod_cast hupper
    have hl : (2 : ℝ) * num ≤ 2 * (roundHalfEven num den * den) + den := by exact_mod_cast hlower
    rw [hscale, abs_le, le_div_iff₀ (by positivity), div_le_iff₀ (by positivity)]
    constructor <;> linarith
  · intro htie
    rw [hscale] at htie
    rw [Int.even_coe_nat]
    apply even_roundHalfEven_of_tie hden
    rcases eq_or_eq_neg_of_abs_eq htie with h | h
    · left
      rw [div_eq_iff (by positivity)] at h
      have hreal : (2 : ℝ) * num = 2 * (roundHalfEven num den * den) + den := by linarith
      exact_mod_cast hreal
    · right
      rw [div_eq_iff (by positivity)] at h
      have hreal : (2 : ℝ) * (roundHalfEven num den * den) = 2 * num + den := by linarith
      exact_mod_cast hreal

namespace Binary64

/-- The exact value of a finite number rounded to `places` fraction digits, in
units of the last place and with its sign. -/
def decimalUnits (places : Nat) (x : Binary64) : ℤ :=
  if x.negative then -(x.roundedTo places : ℤ) else x.roundedTo places

theorem roundsHalfEven_decimalUnits (places : Nat) (x : Binary64) :
    RoundsHalfEven (x.toReal * 10 ^ places) (x.decimalUnits places) := by
  have hround :=
    roundsHalfEven_ratio (magnitudeUnits x.index * powTen places) unitsPerOne_pos_nat
  have hscale : ((magnitudeUnits x.index * powTen places : ℕ) : ℝ) / unitsPerOne =
      magnitudeUnits x.index / unitsPerOne * 10 ^ places := by
    have hpow : powTen places = 10 ^ places := rfl
    rw [hpow]
    push_cast
    ring
  rw [hscale] at hround
  cases hx : x.negative with
  | false => simpa [toReal, units, decimalUnits, roundedTo, hx] using hround
  | true => simpa [toReal, units, decimalUnits, roundedTo, hx, neg_div] using hround.neg

theorem roundsHalfEven_iff (places : Nat) (x : Binary64) (n : ℤ) :
    RoundsHalfEven (x.toReal * 10 ^ places) n ↔ n = x.decimalUnits places := by
  have h := roundsHalfEven_decimalUnits places x
  constructor
  · intro hn
    exact le_antisymm (hn.le h le_rfl) (h.le hn le_rfl)
  · rintro rfl
    exact h

theorem decimalUnits_le (places : Nat) {x y : Binary64} (h : x.toReal ≤ y.toReal) :
    x.decimalUnits places ≤ y.decimalUnits places := by
  have hscaled : x.toReal * 10 ^ places ≤ y.toReal * 10 ^ places :=
    mul_le_mul_of_nonneg_right h (by positivity)
  exact (roundsHalfEven_decimalUnits places x).le (roundsHalfEven_decimalUnits places y) hscaled

end Binary64

/-! ## The text of one bound -/

/-- Fixed notation with `least` to `greatest` fraction digits: an optional minus sign,
one or more digits, a point, and the fraction digits, which end in a zero only if
there are no more than `least` of them. -/
structure FixedNotation (least greatest : Nat) (text sign whole fraction : List Char) :
    Prop where
  text_eq : text = sign ++ whole ++ '.' :: fraction
  sign_eq : sign = [] ∨ sign = ['-']
  whole_ne_nil : whole ≠ []
  digits : ∀ c ∈ whole ++ fraction, c.isDigit = true
  least_le : least ≤ fraction.length
  le_greatest : fraction.length ≤ greatest
  last_ne_zero : least < fraction.length → fraction.getLast? ≠ some '0'

/-- The text starts with a minus sign and denotes zero. -/
def NegativeZero (text : String) : Prop :=
  text.toList.head? = some '-' ∧ Reading.rational? text = some 0

/-- The text writes `n` units of the last place of the precision. -/
structure Precision.Shows (p : Precision) (text : String) (n : ℤ) : Prop where
  layout : ∃ sign whole fraction,
    FixedNotation p.minDigits p.maxDigits text.toList sign whole fraction
  denotes : Reading.rational? text = some ((n : ℚ) / 10 ^ p.maxDigits)
  minus_iff : text.toList.head? = some '-' ↔ n < 0

namespace Numeral

/-- A trimmed numeral is in fixed notation. -/
theorem fixedNotation_trim {n : Numeral} {least : Nat} (h : n.IsDecimal)
    (hleast : least ≤ n.fraction.length) :
    FixedNotation least n.fraction.length (n.trim least).text
      (if n.negative then ['-'] else []) n.whole (trimZeros least n.fraction) where
  text_eq := rfl
  sign_eq := by cases n.negative <;> simp
  whole_ne_nil := h.whole_ne_nil
  digits := by
    have htrim := isDecimal_trim h hleast
    intro c hc
    rcases List.mem_append.mp hc with hc | hc
    · exact htrim.whole_digits c hc
    · exact htrim.fraction_digits c hc
  least_le := le_length_trimZeros _ _
  le_greatest := by
    obtain ⟨count, hfraction⟩ := trimZeros_append hleast
    have hlength := congrArg List.length hfraction
    rw [List.length_append] at hlength
    omega
  last_ne_zero := getLast?_trimZeros

end Numeral

namespace Precision

open Binary64

variable {p : Precision} {v : Binary64}

theorem boundText_of_finite (p : Precision) (hv : v.isFinite = true) :
    p.boundText v = String.ofList ((v.fixed p.maxDigits).trim p.minDigits).text := by
  obtain ⟨hlower, hupper⟩ := rank_bounds_of_finite hv
  have hpos : ¬ (v == posInf) = true := by
    rw [Binary64.beq_iff, rank_posInf]
    omega
  have hneg : ¬ (v == negInf) = true := by
    rw [Binary64.beq_iff, rank_negInf]
    omega
  rw [boundText, if_neg hpos, if_neg hneg]

theorem boundText_eq_written (p : Precision) (hv : v.isFinite = true) :
    p.boundText v = String.ofList (p.written v) := by
  rw [boundText_of_finite p hv, text_eq_written]

theorem negative_fixed_iff (places : Nat) (v : Binary64) :
    (v.fixed places).negative = true ↔ v.decimalUnits places < 0 := by
  rw [fixed, Numeral.ofScaled, decimalUnits]
  cases v.negative with
  | false => simp
  | true => simp

/-- The text of a finite bound shows its rounded value. -/
theorem shows_boundText (p : Precision) (hv : v.isFinite = true) :
    p.Shows (p.boundText v) (v.decimalUnits p.maxDigits) := by
  have hdecimal : (v.fixed p.maxDigits).IsDecimal := Numeral.isDecimal_ofScaled _ _ _
  have hlength : (v.fixed p.maxDigits).fraction.length = p.maxDigits :=
    Numeral.length_fraction_ofScaled _ _ _
  have hleast : p.minDigits ≤ (v.fixed p.maxDigits).fraction.length := by
    rw [hlength]
    exact p.ordered
  have htrim := Numeral.isDecimal_trim hdecimal hleast
  rw [boundText_of_finite p hv]
  refine ⟨?_, ?_, ?_⟩
  · -- Before trimming there are exactly as many places as the precision allows.
    have hnotation := Numeral.fixedNotation_trim hdecimal hleast
    rw [hlength] at hnotation
    rw [String.toList_ofList]
    exact ⟨_, _, _, hnotation⟩
  · rw [Numeral.rational?_text htrim, Numeral.value_trim hleast, fixed, Numeral.value_ofScaled,
      decimalUnits]
  · rw [String.toList_ofList, Numeral.head?_text htrim]
    exact negative_fixed_iff p.maxDigits v

theorem Shows.not_negativeZero {text : String} {n : ℤ} (h : p.Shows text n) :
    ¬ NegativeZero text := by
  rintro ⟨hminus, hzero⟩
  have hn : n < 0 := h.minus_iff.mp hminus
  rw [h.denotes, Option.some_inj, div_eq_zero_iff] at hzero
  rcases hzero with hzero | hzero
  · rw [Int.cast_eq_zero] at hzero
    omega
  · exact absurd hzero (by positivity)

theorem displays_of_le (hp : p.maxDigits ≤ limit) (v : Binary64) : p.displays v = true := by
  simp [displays, hp]

end Precision

/-! ## Displayed intervals -/

/-- Within the limit every finite bound is displayed, by the text that is written step by step. It
is in fixed notation with the digits the precision asks for, denotes exactly the bound rounded to
the greatest number of them, ties to even, and has a minus sign just when the rounded number is
negative. Every bounded interval is
displayed by its two bounds, which are shown in order and never as negative zeros. -/
theorem displayed_bounds_faithful (p : Precision) (hp : p.maxDigits ≤ Precision.limit) :
    (∀ v : Binary64, v.isFinite = true → p.displays v = true ∧
      p.boundText v = String.ofList (p.written v) ∧
      ∃ n : ℤ, (∀ m : ℤ, RoundsHalfEven (v.toReal * 10 ^ p.maxDigits) m ↔ m = n) ∧
        p.Shows (p.boundText v) n) ∧
    ∀ x : Interval, x.isBounded = true →
      x.display? p = some ("[" ++ p.boundText x.lb ++ "," ++ p.boundText x.ub ++ "]") ∧
      (∃ lower upper : ℚ, Reading.rational? (p.boundText x.lb) = some lower ∧
        Reading.rational? (p.boundText x.ub) = some upper ∧ lower ≤ upper) ∧
      ¬ NegativeZero (p.boundText x.lb) ∧ ¬ NegativeZero (p.boundText x.ub) := by
  refine ⟨fun v hv => ⟨Precision.displays_of_le hp v, p.boundText_eq_written hv,
    v.decimalUnits p.maxDigits, Binary64.roundsHalfEven_iff p.maxDigits v,
    p.shows_boundText hv⟩, fun x hx => ?_⟩
  obtain ⟨hlb, hub⟩ := Interval.finite_of_isBounded hx
  have hnonempty : x.isEmpty = false := by
    simp only [Interval.isBounded, Bool.and_eq_true, Bool.not_eq_true'] at hx
    exact hx.1.1
  have hlower := p.shows_boundText hlb
  have hupper := p.shows_boundText hub
  refine ⟨?_, ⟨_, _, hlower.denotes, hupper.denotes, ?_⟩, hlower.not_negativeZero,
    hupper.not_negativeZero⟩
  · simp [Interval.display?, Interval.displayable, Precision.displays_of_le hp, Interval.text,
      hnonempty]
  · -- The bounds are in order, so are their roundings.
    have horder : x.lb.toReal ≤ x.ub.toReal :=
      Binary64.toReal_le_toReal_iff.mpr x.lb_le_ub.2.2
    have hunits := Binary64.decimalUnits_le p.maxDigits horder
    exact div_le_div_of_nonneg_right (by exact_mod_cast hunits) (by positivity)

/-- From `-1/8` to the number nearest to `-1/1000`. -/
def eighthBelowZero : Interval :=
  .ofBounds ⟨0xbfc0000000000000⟩ ⟨0xbf50624dd2f1a9fc⟩

/-- At most two digits. -/
def atMostTwo : Precision :=
  ⟨0, 2, by decide⟩

/-- A tie goes to the even digit, and what rounds to zero is shown without a sign. -/
theorem eighthBelowZero_shown :
    atMostTwo.maxDigits ≤ Precision.limit ∧ eighthBelowZero.lb.isFinite = true ∧
      eighthBelowZero.isBounded = true ∧ atMostTwo.Shows "-0.12" (-12) ∧
      eighthBelowZero.display? atMostTwo = some "[-0.12,0.]" ∧ ¬ NegativeZero "0." := by
  have hlimit : atMostTwo.maxDigits ≤ Precision.limit := by decide
  have hfinite : eighthBelowZero.lb.isFinite = true := by decide
  have hbounded : eighthBelowZero.isBounded = true := by decide
  have hlower : atMostTwo.boundText eighthBelowZero.lb = "-0.12" := by decide +kernel
  have hupper : atMostTwo.boundText eighthBelowZero.ub = "0." := by decide +kernel
  have hunits : eighthBelowZero.lb.decimalUnits 2 = -12 := by decide +kernel
  obtain ⟨hbounds, hintervals⟩ := displayed_bounds_faithful atMostTwo hlimit
  obtain ⟨-, -, n, hn, hshows⟩ := hbounds _ hfinite
  obtain ⟨hdisplay, -, -, hzero⟩ := hintervals _ hbounded
  rw [← (hn _).mp (Binary64.roundsHalfEven_decimalUnits 2 _), hunits, hlower] at hshows
  rw [hlower, hupper] at hdisplay
  rw [hupper] at hzero
  exact ⟨hlimit, hfinite, hbounded, hshows, hdisplay, hzero⟩

end Paving
