import Paving.Binary64.Basic

/-!
# Rounding to nearest, ties to even

Every operation on binary64 numbers is an exact result followed by one rounding.
Exact results are ratios of naturals in units of `2^-1074`; `nearestIndex`
rounds such a ratio to the nearest magnitude and answers with its index.

The step between neighbouring magnitudes is `2^shift` units, where `shift` is
`0` below `2^53` units and grows by one with each binary digit above. Rounding
the ratio to a whole number of steps gives the significand, and because the
indices of one binade follow those of the one before it, `shift * 2^52` plus the
rounded significand is the index: a significand that is rounded up to `2^53`
moves into the next binade by itself, and one that passes the largest finite
number lands on infinity.
-/

set_option autoImplicit false

namespace Paving

/-- The integer nearest to `num / den`, a tie going to the even neighbour. -/
def roundHalfEven (num den : Nat) : Nat :=
  let quotient := num / den
  let twice := 2 * (num % den)
  if twice < den then quotient
  else if den < twice then quotient + 1
  else quotient + quotient % 2

/-- The power `10^n`. -/
def powTen (n : Nat) : Nat :=
  Nat.pow 10 n

namespace Binary64

/-- The index of the magnitude nearest to `num / den` units. -/
def nearestIndex (num den : Nat) : Nat :=
  let shift := (num / den).log2 - 52
  min infinityIndex (shift * binade + roundHalfEven num (den <<< shift))

/-- The number nearest to `num / den` units, with the given sign. -/
def ofUnits (negative : Bool) (num den : Nat) : Binary64 :=
  ofIndex negative (nearestIndex num den)

/-- The number nearest to the rational `num / den`, with the given sign. -/
def ofRatio (negative : Bool) (num den : Nat) : Binary64 :=
  ofUnits negative (num * unitsPerOne) den

/-- The number nearest to `mantissa * 10^exponent`, with the given sign. A power
of ten beyond the range of binary64 is not computed: a non-zero number of at
least `10^310` is an infinity, and one below `10^-330` is a zero. -/
def ofDecimal (negative : Bool) (mantissa : Nat) (exponent : Int) : Binary64 :=
  let order : Int := (Nat.toDigits 10 mantissa).length + exponent
  if mantissa = 0 then ofIndex negative 0
  else if 310 < order then ofIndex negative infinityIndex
  else if order < -330 then ofIndex negative 0
  else if 0 ≤ exponent then ofRatio negative (mantissa * powTen exponent.toNat) 1
  else ofRatio negative mantissa (powTen (-exponent).toNat)

/-- Decimal literals denote the nearest number. -/
instance : OfScientific Binary64 where
  ofScientific mantissa negativeExponent exponent :=
    ofDecimal false mantissa (if negativeExponent then -(exponent : Int) else exponent)

end Binary64

end Paving
