import Paving.Binary64.Rounding

/-!
# Shortest decimal digits

The shortest decimal text of a finite number is the one with the fewest digits
that still reads back as the same number. For each count of digits, beginning
with one, the two neighbours of the exact value on the grid of decimals with
that many digits are tried; the first count with a neighbour that reads back
wins, and of two such neighbours the nearer one, a tie going up. Seventeen
digits always suffice.

A `NumberStyle` holds the decisions that digits leave open: when the text turns
to an exponent, and whether a whole number keeps a point.
-/

set_option autoImplicit false

namespace Paving

/-- Decimal digits `d₁ d₂ …` with the order of the first: the value is
`d₁.d₂… * 10^order`. -/
structure Digits where
  digits : List Char
  order : Int
deriving DecidableEq

namespace Binary64

/-- The order of the leading decimal digit of `num / den`, for a ratio of at
least `10^-324`. -/
def decimalOrder (num den : Nat) : Int :=
  ((Nat.toDigits 10 (num * powTen 324 / den)).length : Int) - 325

/-- The ratio `(num / den) / 10^exponent` as numerator and denominator. -/
def scaleTen (num den : Nat) (exponent : Int) : Nat × Nat :=
  if 0 ≤ exponent then (num, den * powTen exponent.toNat)
  else (num * powTen (-exponent).toNat, den)

/-- Whether `coefficient * 10^exponent` is rounded to the magnitude at `index`. -/
def readsBack (index coefficient : Nat) (exponent : Int) : Bool :=
  decide ((ofDecimal false coefficient exponent).index = index)

/-- The better of the two neighbours of the magnitude at `index` on the grid of
step `10^exponent`, among those that read back. -/
def gridNeighbour? (index : Nat) (exponent : Int) : Option Nat :=
  let (num, den) := scaleTen (magnitudeUnits index) unitsPerOne exponent
  let below := num / den
  match readsBack index below exponent, readsBack index (below + 1) exponent with
  | true, true => some (if 2 * (num % den) < den then below else below + 1)
  | true, false => some below
  | false, true => some (below + 1)
  | false, false => none

/-- The digits of a coefficient without the zeros that end it. -/
def trimmedDigits (coefficient : Nat) : List Char :=
  ((Nat.toDigits 10 coefficient).reverse.dropWhile (· == '0')).reverse

/-- The shortest digits of the positive finite magnitude at `index`. -/
def shortestDigits (index : Nat) : Digits :=
  let order := decimalOrder (magnitudeUnits index) unitsPerOne
  let attempt (extra : Nat) : Option Digits :=
    let exponent := order - extra
    (gridNeighbour? index exponent).map fun coefficient =>
      ⟨trimmedDigits coefficient,
        exponent + ((Nat.toDigits 10 coefficient).length : Int) - 1⟩
  ((List.range 17).findSome? attempt).getD ⟨['0'], 0⟩

end Binary64

/-! ## Layout -/

/-- How digits are laid out: whether a whole number written positionally ends in
`.0`, and for which orders positional notation is used. -/
structure NumberStyle where
  pointAfterWhole : Bool
  positional : Int → Bool

/-- Always positional, whole numbers without a point. -/
def NumberStyle.plain : NumberStyle where
  pointAfterWhole := false
  positional _ := true

/-- Positional from `10^-4` up to `10^16`, whole numbers with a point. -/
def NumberStyle.explicit : NumberStyle where
  pointAfterWhole := true
  positional order := decide (-4 ≤ order ∧ order < 16)

namespace Digits

/-- The digits with a decimal point in its place. -/
def positional (d : Digits) (pointAfterWhole : Bool) : List Char :=
  if d.order < 0 then
    ['0', '.'] ++ List.replicate (-d.order - 1).toNat '0' ++ d.digits
  else
    let wholeLength := d.order.toNat + 1
    let fraction := d.digits.drop wholeLength
    let whole := d.digits.take wholeLength
    let padding := List.replicate (wholeLength - d.digits.length) '0'
    if fraction = [] then
      whole ++ padding ++ (if pointAfterWhole then ['.', '0'] else [])
    else whole ++ '.' :: fraction

/-- The digits with one of them before the point, and the order as exponent. -/
def scientific (d : Digits) : List Char :=
  let fraction := d.digits.drop 1
  let mantissa := d.digits.take 1 ++ (if fraction = [] then [] else '.' :: fraction)
  let exponent := Nat.toDigits 10 d.order.natAbs
  mantissa ++ 'e' :: (if d.order < 0 then '-' :: exponent else exponent)

/-- The digits laid out in a style. -/
def layout (style : NumberStyle) (d : Digits) : List Char :=
  if style.positional d.order then d.positional style.pointAfterWhole else d.scientific

end Digits

/-- The shortest text of a number in a style. -/
def Binary64.text (style : NumberStyle) (x : Binary64) : String :=
  if x.isNaN then "NaN"
  else
    let magnitude :=
      if x.isInfinite then ['i', 'n', 'f']
      else if x.index = 0 then (Digits.mk ['0'] 0).layout style
      else (shortestDigits x.index).layout style
    String.ofList (if x.negative then '-' :: magnitude else magnitude)

end Paving
