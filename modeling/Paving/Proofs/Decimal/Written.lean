import Paving.Display
import Paving.Proofs.Decimal.Numerals

/-!
# Bounds written character by character

A bound can be written without taking a numeral apart, by steps on its text. The number is
written with all its places, behind a minus sign whenever its word carries one. The sign is taken
away again if nothing but zeros and a point follow it. Then the point is looked for: zeros are
popped from the end of the text as long as more than the least number of places stand behind it,
and a text without a point gets one. `text_eq_written` says that trimming the numeral of the
bound leads to the same text.

The sign goes exactly when the number rounds to zero, because digits that denote zero are zeros
(`digitsValue_eq_zero_iff`). Popping stops at the point at the latest, so it trims the fraction
and nothing else (`popZeros_append_replicate`).
-/

set_option autoImplicit false

namespace Paving

/-! ## Steps on a text -/

/-- The digits of a numeral, with a point only where fraction digits follow it. -/
def Numeral.digits (n : Numeral) : List Char :=
  n.whole ++ if n.fraction = [] then [] else '.' :: n.fraction

/-- A finite number with `places` fraction digits, behind a minus sign if its word carries one. -/
def Binary64.positional (places : Nat) (v : Binary64) : List Char :=
  (if v.negative then ['-'] else []) ++ (v.fixed places).digits

namespace Written

/-- Takes a minus sign away if only zeros and points follow it. -/
def dropZeroSign : List Char → List Char
  | '-' :: rest => if rest.all (fun c => c == '0' || c == '.') then rest else '-' :: rest
  | text => text

/-- Pops zeros from the end of a text as long as it is longer than `least`. -/
def popZeros (least : Nat) (text : List Char) : List Char :=
  if least < text.length ∧ text.getLast? = some '0' then popZeros least text.dropLast else text
termination_by text.length
decreasing_by
  rw [List.length_dropLast]
  omega

/-- Pops zeros down to `least` places behind the point, or adds a point that is missing. -/
def endFraction (least : Nat) (text : List Char) : List Char :=
  match text.findIdx? (· == '.') with
  | some dot => popZeros (dot + 1 + least) text
  | none => text ++ ['.']

end Written

open Written

/-- The text of a finite bound, step by step. -/
def Precision.written (p : Precision) (v : Binary64) : List Char :=
  endFraction p.minDigits (dropZeroSign (v.positional p.maxDigits))

/-! ## Digits that denote zero -/

namespace Reading

theorem digitsValue_singleton_eq_zero_iff {c : Char} (hc : c.isDigit = true) :
    digitsValue [c] = 0 ↔ c = '0' := by
  obtain ⟨hlow, -⟩ := Char.isDigit_iff_toNat.mp hc
  have hvalue : digitsValue [c] = c.toNat - '0'.toNat := by simp [digitsValue]
  rw [hvalue, ← Char.toNat_inj]
  omega

theorem digitsValue_eq_zero_iff {digits : List Char} (h : ∀ c ∈ digits, c.isDigit = true) :
    digitsValue digits = 0 ↔ ∀ c ∈ digits, c = '0' := by
  induction digits with
  | nil => simp [digitsValue]
  | cons c digits ih =>
    rw [List.forall_mem_cons] at h ⊢
    have hcons : digitsValue (c :: digits) =
        digitsValue [c] * 10 ^ digits.length + digitsValue digits :=
      digitsValue_append [c] digits
    rw [hcons, Nat.add_eq_zero_iff, ih h.2, Nat.mul_eq_zero,
      digitsValue_singleton_eq_zero_iff h.1]
    simp

end Reading

namespace Numeral

open Reading

theorem mem_digits_iff {n : Numeral} {c : Char} :
    c ∈ n.digits ↔ c ∈ n.whole ++ n.fraction ∨ c = '.' ∧ n.fraction ≠ [] := by
  rw [Numeral.digits]
  by_cases hfraction : n.fraction = []
  · simp [hfraction]
  · simp [hfraction]
    tauto

/-- The digits of a numeral hold no point. -/
theorem IsDecimal.ne_point {n : Numeral} (h : n.IsDecimal) {c : Char}
    (hc : c ∈ n.whole ++ n.fraction) : c ≠ '.' := by
  rcases List.mem_append.mp hc with hc | hc
  · exact ne_of_isDigit (h.whole_digits c hc) (by decide)
  · exact ne_of_isDigit (h.fraction_digits c hc) (by decide)

/-- A numeral denotes zero if its digits are zeros, beside a point. -/
theorem all_zero_digits_iff {n : Numeral} (h : n.IsDecimal) :
    n.digits.all (fun c => c == '0' || c == '.') = true ↔
      digitsValue (n.whole ++ n.fraction) = 0 := by
  rw [digitsValue_eq_zero_iff (List.forall_mem_append.mpr ⟨h.whole_digits, h.fraction_digits⟩),
    List.all_eq_true]
  constructor
  · intro hall c hc
    simpa [h.ne_point hc] using hall c (mem_digits_iff.mpr (.inl hc))
  · intro hzeros c hc
    rcases mem_digits_iff.mp hc with hmem | ⟨rfl, -⟩
    · rw [hzeros c hmem]
      rfl
    · rfl

end Numeral

/-! ## The sign -/

namespace Written

open Reading

theorem dropZeroSign_of_ne {c : Char} (hc : c ≠ '-') (rest : List Char) :
    dropZeroSign (c :: rest) = c :: rest := by
  rw [dropZeroSign]
  rintro tail ⟨⟩
  exact hc rfl

/-- The sign goes exactly when the number rounds to zero. -/
theorem dropZeroSign_positional (places : Nat) (v : Binary64) :
    dropZeroSign (v.positional places) =
      (if (v.fixed places).negative then ['-'] else []) ++ (v.fixed places).digits := by
  have hdecimal : (v.fixed places).IsDecimal := Numeral.isDecimal_ofScaled _ _ _
  have hvalue : digitsValue ((v.fixed places).whole ++ (v.fixed places).fraction) =
      v.roundedTo places := Numeral.digitsValue_ofScaled _ _ _
  have hzero := Numeral.all_zero_digits_iff hdecimal
  rw [hvalue] at hzero
  rw [Binary64.positional]
  cases hv : v.negative with
  | true =>
    have hnegative : (v.fixed places).negative = decide (v.roundedTo places ≠ 0) := by
      rw [Binary64.fixed, Numeral.ofScaled, hv, Bool.true_and]
    show dropZeroSign ('-' :: (v.fixed places).digits) = _
    rw [dropZeroSign, hnegative]
    by_cases hrounded : v.roundedTo places = 0
    · rw [if_pos (hzero.mpr hrounded)]
      simp [hrounded]
    · rw [if_neg (mt hzero.mp hrounded)]
      simp [hrounded]
  | false =>
    have hnegative : (v.fixed places).negative = false := by
      rw [Binary64.fixed, Numeral.ofScaled, hv, Bool.false_and]
    obtain ⟨c, rest, hwhole, hc⟩ := hdecimal.exists_cons
    rw [hnegative, Numeral.digits, hwhole]
    exact dropZeroSign_of_ne (ne_of_isDigit hc (by decide)) _

/-! ## Popping zeros -/

section Popping

variable {least : Nat} {text : List Char}

theorem popZeros_of_length_le (h : text.length ≤ least) : popZeros least text = text := by
  rw [popZeros, if_neg]
  omega

theorem popZeros_of_getLast?_ne (h : text.getLast? ≠ some '0') : popZeros least text = text := by
  rw [popZeros, if_neg]
  exact fun hpop => h hpop.2

theorem popZeros_concat_zero (h : least ≤ text.length) :
    popZeros least (text ++ ['0']) = popZeros least text := by
  rw [popZeros, if_pos ⟨by simpa using Nat.lt_succ_of_le h, List.getLast?_concat⟩,
    List.dropLast_concat]

/-- Of the zeros at the end those stay that the text needs to be long enough. -/
theorem popZeros_append_replicate (h : text.getLast? ≠ some '0') (zeros : Nat)
    (hleast : least ≤ text.length + zeros) :
    popZeros least (text ++ List.replicate zeros '0') =
      text ++ List.replicate (least - text.length) '0' := by
  induction zeros with
  | zero =>
    have hnone : least - text.length = 0 := by omega
    rw [hnone, List.replicate_zero, List.append_nil, popZeros_of_getLast?_ne h]
  | succ zeros ih =>
    by_cases hpop : least ≤ text.length + zeros
    · rw [List.replicate_succ', ← List.append_assoc, popZeros_concat_zero (by simpa using hpop),
        ih hpop]
    · -- The text is no longer than it has to be.
      have hall : least - text.length = zeros + 1 := by omega
      rw [hall]
      refine popZeros_of_length_le ?_
      rw [List.length_append, List.length_replicate]
      omega

/-- Popping behind a point trims the digits there. -/
theorem popZeros_point {front digits : List Char} (h : least ≤ digits.length) :
    popZeros (front.length + 1 + least) (front ++ '.' :: digits) =
      front ++ '.' :: Numeral.trimZeros least digits := by
  obtain ⟨zeros, hdigits⟩ := Numeral.exists_trailing_zeros digits
  have hlast := Numeral.getLast?_rdropWhile_ne_zero digits
  rw [Numeral.trimZeros_eq]
  generalize digits.rdropWhile (· == '0') = kept at hdigits hlast ⊢
  subst hdigits
  rw [List.length_append, List.length_replicate] at h
  -- The last character that is no zero is the point, or stands behind it.
  have hstop : (front ++ '.' :: kept).getLast? ≠ some '0' := by
    rw [List.getLast?_append, List.getLast?_cons]
    cases hkept : kept.getLast? with
    | none => simp
    | some c => simpa [hkept] using hlast
  have hlength : (front ++ '.' :: kept).length = front.length + 1 + kept.length := by
    rw [List.length_append, List.length_cons]
    omega
  calc popZeros (front.length + 1 + least) (front ++ '.' :: (kept ++ List.replicate zeros '0'))
      = popZeros (front.length + 1 + least)
          ((front ++ '.' :: kept) ++ List.replicate zeros '0') := by simp
    _ = (front ++ '.' :: kept) ++ List.replicate (least - kept.length) '0' := by
      rw [popZeros_append_replicate hstop zeros (by omega), hlength, Nat.add_sub_add_left]
    _ = front ++ '.' :: (kept ++ List.replicate (least - kept.length) '0') := by simp

end Popping

/-- The point stands behind the sign and the whole part, or is missing. -/
theorem endFraction_digits {least : Nat} {sign : List Char} {n : Numeral} (h : n.IsDecimal)
    (hsign : '.' ∉ sign) (hleast : least ≤ n.fraction.length) :
    endFraction least (sign ++ n.digits) =
      sign ++ n.whole ++ '.' :: Numeral.trimZeros least n.fraction := by
  have hfront : (sign ++ n.whole).findIdx? (· == '.') = none := by
    rw [List.findIdx?_eq_none_iff]
    intro c hc
    rw [beq_eq_false_iff_ne]
    rcases List.mem_append.mp hc with hc | hc
    · exact fun hpoint => hsign (hpoint ▸ hc)
    · exact h.ne_point (List.mem_append_left _ hc)
  rw [endFraction, Numeral.digits, ← List.append_assoc, List.findIdx?_append, hfront]
  by_cases hfraction : n.fraction = []
  · rw [if_pos hfraction]
    rw [hfraction, List.length_nil, Nat.le_zero] at hleast
    subst hleast
    rw [hfraction, List.append_nil]
    rfl
  · rw [if_neg hfraction, List.findIdx?_cons, if_pos (beq_self_eq_true '.')]
    show popZeros (0 + (sign ++ n.whole).length + 1 + least) _ = _
    rw [Nat.zero_add, popZeros_point hleast]

end Written

namespace Precision

open Binary64

/-- Displaying a bound through its numeral gives the text that the steps write. -/
theorem text_eq_written (p : Precision) (v : Binary64) :
    ((v.fixed p.maxDigits).trim p.minDigits).text = p.written v := by
  have hdecimal : (v.fixed p.maxDigits).IsDecimal := Numeral.isDecimal_ofScaled _ _ _
  have hleast : p.minDigits ≤ (v.fixed p.maxDigits).fraction.length := by
    rw [fixed, Numeral.length_fraction_ofScaled]
    exact p.ordered
  rw [written, dropZeroSign_positional, endFraction_digits hdecimal ?_ hleast]
  · rfl
  · cases (v.fixed p.maxDigits).negative <;> simp

end Precision

end Paving
