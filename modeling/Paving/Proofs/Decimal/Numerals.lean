import Mathlib.Data.List.DropRight
import Mathlib.Data.Rat.Cast.Order
import Mathlib.Tactic.Positivity
import Mathlib.Tactic.Ring
import Paving.Decimal.Fixed
import Paving.Decimal.Reading

/-!
# Numerals and the numbers they denote

A text denotes a rational number, the one its digits, its sign and its exponent
spell (`Reading.rational?`). A numeral has a value of its own, and when it is made
of decimal digits its text denotes that value (`rational?_text`).

The numeral of `n / 10^places` has that value (`value_ofScaled`): its digits are
those of the quotient and of the remainder, and the halves into which
`lastDigits` cuts the remainder put their digits back in place by the rule for
the value of two digit strings in a row. Trimming takes zeros from the end and
changes no value (`value_trim`); what it leaves is at least as long as asked for
and ends in a zero only if it is exactly that long (`trimZeros_append`,
`getLast?_trimZeros`).
-/

set_option autoImplicit false

namespace Paving

namespace Reading

/-- The rational number that a text denotes. -/
def rational? (text : String) : Option ℚ :=
  let (negative, body) := sign text.toList
  (decimal? body).map fun (mantissa, exponent) =>
    (if negative then -1 else 1) * (mantissa : ℚ) * (10 : ℚ) ^ exponent

/-! ## Values of digit strings -/

theorem digitsValue_append (front back : List Char) :
    digitsValue (front ++ back) =
      digitsValue front * 10 ^ back.length + digitsValue back := by
  have h : digitsValue (front ++ back) = Nat.ofDigitChars 10 back (digitsValue front) :=
    Nat.ofDigitChars_append 0
  rw [h, Nat.ofDigitChars_eq_ofDigitChars_zero, Nat.mul_comm]
  rfl

theorem digitsValue_replicate_zero (count : Nat) :
    digitsValue (List.replicate count '0') = 0 := by
  have h : digitsValue (List.replicate count '0') = 10 ^ count * 0 :=
    Nat.ofDigitChars_replicate_zero
  rw [h, Nat.mul_zero]

theorem digitsValue_toDigits (n : Nat) : digitsValue (Nat.toDigits 10 n) = n :=
  Nat.ofDigitChars_ten_toDigits

/-! ## Reading digits, a point and digits -/

/-- A run of digits is read up to the first character that is none. -/
theorem span_isDigit {digits rest : List Char} (hdigits : ∀ c ∈ digits, c.isDigit = true)
    (hrest : ∀ c ∈ rest.head?, c.isDigit = false) :
    (digits ++ rest).span Char.isDigit = (digits, rest) := by
  rw [List.span_eq_takeWhile_dropWhile, List.takeWhile_append_of_pos hdigits,
    List.dropWhile_append_of_pos hdigits]
  cases rest with
  | nil => simp
  | cons c rest =>
    have hc : c.isDigit = false := hrest c rfl
    simp [hc]

theorem decimal?_point {whole places : List Char} (hne : whole ≠ [])
    (hwhole : ∀ c ∈ whole, c.isDigit = true) (hplaces : ∀ c ∈ places, c.isDigit = true) :
    decimal? (whole ++ '.' :: places) =
      some (digitsValue (whole ++ places), -(places.length : Int)) := by
  have hfirst : (whole ++ '.' :: places).span Char.isDigit = (whole, '.' :: places) :=
    span_isDigit hwhole (by simp)
  have hsecond : fraction ('.' :: places) = (places, []) := by
    have h : (places ++ []).span Char.isDigit = (places, []) := span_isDigit hplaces (by simp)
    rwa [List.append_nil] at h
  simp only [decimal?, hfirst, hsecond]
  simp [hne, exponent?]

theorem ne_of_isDigit {c d : Char} (hc : c.isDigit = true) (hd : d.isDigit = false) : c ≠ d := by
  rintro rfl
  rw [hc] at hd
  cases hd

/-- Digits carry no sign. -/
theorem sign_of_isDigit {c : Char} (hc : c.isDigit = true) (rest : List Char) :
    sign (c :: rest) = (false, c :: rest) := by
  rw [sign]
  · rintro tail ⟨⟩
    exact ne_of_isDigit hc (by decide) rfl
  · rintro tail ⟨⟩
    exact ne_of_isDigit hc (by decide) rfl

end Reading

namespace Numeral

open Reading

/-- Both parts of a numeral are decimal digits, and the first part is not empty. -/
structure IsDecimal (n : Numeral) : Prop where
  whole_ne_nil : n.whole ≠ []
  whole_digits : ∀ c ∈ n.whole, c.isDigit = true
  fraction_digits : ∀ c ∈ n.fraction, c.isDigit = true

/-- The number a numeral stands for. -/
def value (n : Numeral) : ℚ :=
  (if n.negative then -1 else 1) * (digitsValue (n.whole ++ n.fraction) : ℚ) /
    10 ^ n.fraction.length

theorem IsDecimal.exists_cons {n : Numeral} (h : n.IsDecimal) :
    ∃ c rest, n.whole = c :: rest ∧ c.isDigit = true := by
  obtain ⟨c, rest, hwhole⟩ := List.exists_cons_of_ne_nil h.whole_ne_nil
  exact ⟨c, rest, hwhole, h.whole_digits c (by simp [hwhole])⟩

theorem head?_text {n : Numeral} (h : n.IsDecimal) :
    n.text.head? = some '-' ↔ n.negative = true := by
  cases hn : n.negative with
  | true => simp [text, hn]
  | false =>
    obtain ⟨c, rest, hwhole, hc⟩ := h.exists_cons
    have hminus : c ≠ '-' := ne_of_isDigit hc (by decide)
    simp [text, hn, hwhole, hminus]

/-- The text of a numeral denotes its value. -/
theorem rational?_text {n : Numeral} (h : n.IsDecimal) :
    rational? (String.ofList n.text) = some n.value := by
  have hbody := decimal?_point h.whole_ne_nil h.whole_digits h.fraction_digits
  have hsign : sign n.text = (n.negative, n.whole ++ '.' :: n.fraction) := by
    cases hn : n.negative with
    | true => simp [text, hn, sign]
    | false =>
      obtain ⟨c, rest, hwhole, hc⟩ := h.exists_cons
      simp [text, hn, hwhole, sign_of_isDigit hc]
  simp only [rational?, String.toList_ofList, hsign, hbody, Option.map_some, value,
    zpow_neg, zpow_natCast, div_eq_mul_inv]

/-! ## The last digits of a number -/

theorem length_lastDigits (count n : Nat) : (lastDigits count n).length = count := by
  fun_induction lastDigits count n with
  | case1 => rfl
  | case2 => rfl
  | case3 count n _ _ low ih_high ih_low =>
    rw [List.length_append, ih_high, ih_low]
    omega

theorem isDigit_of_mem_lastDigits (count n : Nat) :
    ∀ c ∈ lastDigits count n, c.isDigit = true := by
  fun_induction lastDigits count n with
  | case1 => simp
  | case2 =>
    simp only [List.mem_singleton, forall_eq, Nat.isDigit_digitChar, decide_eq_true_eq]
    omega
  | case3 count n _ _ low ih_high ih_low =>
    intro c hc
    rcases List.mem_append.mp hc with h | h
    · exact ih_high c h
    · exact ih_low c h

/-- The last digits spell the remainder by a power of ten. -/
theorem digitsValue_lastDigits (count n : Nat) :
    digitsValue (lastDigits count n) = n % 10 ^ count := by
  fun_induction lastDigits count n with
  | case1 => simp [digitsValue, Nat.mod_one]
  | case2 n =>
    have h : (n % 10).digitChar.toNat - 48 = n % 10 :=
      Nat.toNat_digitChar_sub_48_of_lt_ten (by omega)
    simpa [digitsValue] using h
  | case3 count n _ _ low ih_high ih_low =>
    -- The high half is the quotient by `10^low`, so the halves fit by `x % (a * b)`.
    have hsplit : 10 ^ count = 10 ^ low * 10 ^ (count - low) := by
      rw [← Nat.pow_add]
      congr 1
      omega
    have hpow : powTen low = 10 ^ low := rfl
    rw [digitsValue_append, ih_high, ih_low, length_lastDigits, hpow, Nat.mod_mod, hsplit,
      Nat.mod_mul]
    ring

/-! ## Scaled numbers -/

theorem isDecimal_ofScaled (negative : Bool) (scaled places : Nat) :
    (ofScaled negative scaled places).IsDecimal where
  whole_ne_nil := Nat.toDigits_ne_nil
  whole_digits := fun _ hc => Nat.isDigit_of_mem_toDigits (by decide) (by decide) hc
  fraction_digits := isDigit_of_mem_lastDigits _ _

theorem length_fraction_ofScaled (negative : Bool) (scaled places : Nat) :
    (ofScaled negative scaled places).fraction.length = places :=
  length_lastDigits _ _

theorem digitsValue_ofScaled (negative : Bool) (scaled places : Nat) :
    digitsValue ((ofScaled negative scaled places).whole ++
      (ofScaled negative scaled places).fraction) = scaled := by
  have hpow : powTen places = 10 ^ places := rfl
  rw [digitsValue_append, length_fraction_ofScaled]
  simp only [ofScaled, digitsValue_toDigits, digitsValue_lastDigits, hpow, Nat.mod_mod]
  exact Nat.div_add_mod' scaled (10 ^ places)

/-- A number in units of the last place, written with that many places. -/
theorem value_ofScaled (negative : Bool) (scaled places : Nat) :
    (ofScaled negative scaled places).value =
      (((if negative then -(scaled : ℤ) else scaled) : ℤ) : ℚ) / 10 ^ places := by
  rw [value, digitsValue_ofScaled, length_fraction_ofScaled]
  congr 1
  cases negative with
  | false => simp [ofScaled]
  | true =>
    -- The sign is dropped at zero only, where it makes no difference.
    by_cases hzero : scaled = 0
    · simp [hzero]
    · simp [ofScaled, hzero]

/-! ## Trimming -/

theorem trimZeros_eq (least : Nat) (digits : List Char) :
    trimZeros least digits = digits.rdropWhile (· == '0') ++
      List.replicate (least - (digits.rdropWhile (· == '0')).length) '0' :=
  rfl

theorem exists_trailing_zeros (digits : List Char) :
    ∃ zeros, digits = digits.rdropWhile (· == '0') ++ List.replicate zeros '0' := by
  refine ⟨(digits.rtakeWhile (· == '0')).length, ?_⟩
  have hzeros : digits.rtakeWhile (· == '0') =
      List.replicate (digits.rtakeWhile (· == '0')).length '0' := by
    refine List.eq_replicate_iff.mpr ⟨rfl, fun c hc => ?_⟩
    simpa using List.mem_rtakeWhile_imp hc
  rw [← hzeros, List.rdropWhile_append_rtakeWhile]

/-- Trimming takes zeros from the end and nothing else. -/
theorem trimZeros_append {least : Nat} {digits : List Char} (h : least ≤ digits.length) :
    ∃ count, digits = trimZeros least digits ++ List.replicate count '0' := by
  obtain ⟨zeros, hdigits⟩ := exists_trailing_zeros digits
  have hlength := congrArg List.length hdigits
  rw [List.length_append, List.length_replicate] at hlength
  refine ⟨zeros - (least - (digits.rdropWhile (· == '0')).length), ?_⟩
  rw [trimZeros_eq, List.append_assoc, List.replicate_append_replicate,
    Nat.add_sub_cancel' (by omega)]
  exact hdigits

theorem le_length_trimZeros (least : Nat) (digits : List Char) :
    least ≤ (trimZeros least digits).length := by
  rw [trimZeros_eq, List.length_append, List.length_replicate]
  omega

/-- Without its trailing zeros a list does not end in a zero. -/
theorem getLast?_rdropWhile_ne_zero (digits : List Char) :
    (digits.rdropWhile (· == '0')).getLast? ≠ some '0' := by
  intro hlast
  obtain ⟨front, hfront⟩ := List.getLast?_eq_some_iff.mp hlast
  have hne : digits.rdropWhile (· == '0') ≠ [] := by simp [hfront]
  have hnot := List.rdropWhile_last_not (· == '0') digits hne
  simp [hfront] at hnot

/-- A trimmed list longer than asked for does not end in a zero. -/
theorem getLast?_trimZeros {least : Nat} {digits : List Char}
    (h : least < (trimZeros least digits).length) :
    (trimZeros least digits).getLast? ≠ some '0' := by
  -- Nothing was padded, so the list ends where the zeros were cut off.
  rw [trimZeros_eq, List.length_append, List.length_replicate] at h
  have hpad : least - (digits.rdropWhile (· == '0')).length = 0 := by omega
  rw [trimZeros_eq, hpad, List.replicate_zero, List.append_nil]
  exact getLast?_rdropWhile_ne_zero digits

theorem isDecimal_trim {least : Nat} {n : Numeral} (h : n.IsDecimal)
    (hleast : least ≤ n.fraction.length) : (n.trim least).IsDecimal := by
  obtain ⟨count, hfraction⟩ := trimZeros_append hleast
  refine ⟨h.whole_ne_nil, h.whole_digits, fun c hc => h.fraction_digits c ?_⟩
  rw [hfraction]
  exact List.mem_append_left _ hc

theorem value_trim {least : Nat} {n : Numeral} (hleast : least ≤ n.fraction.length) :
    (n.trim least).value = n.value := by
  obtain ⟨count, hfraction⟩ := trimZeros_append hleast
  have hlength := congrArg List.length hfraction
  have hvalue := congrArg (fun ds => digitsValue (n.whole ++ ds)) hfraction
  simp only [← List.append_assoc, digitsValue_append _ (List.replicate count '0'),
    digitsValue_replicate_zero, List.length_replicate, Nat.add_zero] at hvalue
  rw [List.length_append, List.length_replicate] at hlength
  simp only [value, trim, hvalue, hlength, pow_add, Nat.cast_mul, Nat.cast_pow,
    Nat.cast_ofNat]
  rw [← mul_assoc]
  exact (mul_div_mul_right _ _ (by positivity)).symm

end Numeral

end Paving
