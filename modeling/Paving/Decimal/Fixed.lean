import Paving.Binary64.Rounding

/-!
# Decimals with a fixed number of places

The exact value of a finite number, rounded to a given number of fraction digits
with ties to even, and split into its whole and its fraction digits. Trailing
zeros of the fraction can be dropped down to a least number of places.
-/

set_option autoImplicit false

namespace Paving

/-- A decimal numeral: a sign, the digits before the point and those after it. -/
structure Numeral where
  negative : Bool
  whole : List Char
  fraction : List Char
deriving DecidableEq

namespace Numeral

/-- The last `count` decimal digits of `n`, zeros in front included. The digits are
split in two halves, so that long numerals take few divisions. -/
def lastDigits (count n : Nat) : List Char :=
  if count = 0 then []
  else if count = 1 then [Nat.digitChar (n % 10)]
  else
    let low := count / 2
    lastDigits (count - low) (n / powTen low) ++ lastDigits low (n % powTen low)
termination_by count

/-- The numeral of `scaled / 10^places`. Zero carries no sign. -/
def ofScaled (negative : Bool) (scaled places : Nat) : Numeral where
  negative := negative && decide (scaled ≠ 0)
  whole := Nat.toDigits 10 (scaled / powTen places)
  fraction := lastDigits places (scaled % powTen places)

/-- Drops zeros from the end of a list as long as it stays longer than `least`. -/
def trimZeros (least : Nat) (digits : List Char) : List Char :=
  let kept := (digits.reverse.dropWhile (· == '0')).reverse
  kept ++ List.replicate (least - kept.length) '0'

/-- Drops trailing fraction zeros beyond the first `least` places. -/
def trim (least : Nat) (n : Numeral) : Numeral :=
  { n with fraction := trimZeros least n.fraction }

/-- The numeral as text. The point is always written. -/
def text (n : Numeral) : List Char :=
  (if n.negative then ['-'] else []) ++ n.whole ++ '.' :: n.fraction

end Numeral

/-- The exact value of a finite number rounded to `places` fraction digits, in
units of the last place. -/
def Binary64.roundedTo (places : Nat) (x : Binary64) : Nat :=
  roundHalfEven (magnitudeUnits x.index * powTen places) unitsPerOne

/-- A finite number as a numeral with `places` fraction digits. -/
def Binary64.fixed (places : Nat) (x : Binary64) : Numeral :=
  Numeral.ofScaled x.negative (x.roundedTo places) places

end Paving
