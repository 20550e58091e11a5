import Paving.Binary64.Rounding

/-!
# Arithmetic on binary64 numbers

Addition, multiplication, division, square root and the fused product-and-sum,
each correctly rounded: on finite operands the exact result is formed in integer
arithmetic and rounded once. Infinities, NaNs and the signs of zeros follow the
usual rules: an undefined result is a NaN, an exact sum of opposite numbers is
`+0`, and a product or quotient has the product of the signs.
-/

set_option autoImplicit false

namespace Paving

/-- Newton's iteration for the integer square root, from a guess above it. -/
def integerRootFrom (n guess : Nat) : Nat :=
  let next := (guess + n / guess) / 2
  if next < guess then integerRootFrom n next else guess
termination_by guess

/-- The largest `r` with `r * r ≤ n`. -/
def integerRoot (n : Nat) : Nat :=
  if n ≤ 1 then n else integerRootFrom n (1 <<< (n.log2 / 2 + 1))

namespace Binary64

/-- The number nearest to `num / den` units for a signed numerator. An exact
zero takes the sign `zeroSign`. -/
def ofSignedUnits (num : Int) (den : Nat) (zeroSign : Bool) : Binary64 :=
  if num = 0 then ofIndex zeroSign 0
  else ofUnits (decide (num < 0)) num.natAbs den

/-- The rounded sum. -/
def add (a b : Binary64) : Binary64 :=
  if a.isNaN || b.isNaN then nan
  else if a.isInfinite then
    if b.isInfinite && (a.negative != b.negative) then nan else a
  else if b.isInfinite then b
  else ofSignedUnits (a.units + b.units) 1 (a.negative && b.negative)

instance : Add Binary64 where
  add := add

/-- A difference is the sum with the negated subtrahend. -/
instance : Sub Binary64 where
  sub a b := add a (-b)

/-- The rounded product. -/
def mul (a b : Binary64) : Binary64 :=
  let sign := a.negative != b.negative
  if a.isNaN || b.isNaN then nan
  else if a.isInfinite || b.isInfinite then
    if a.index = 0 || b.index = 0 then nan else ofIndex sign infinityIndex
  else ofUnits sign (magnitudeUnits a.index * magnitudeUnits b.index) unitsPerOne

instance : Mul Binary64 where
  mul := mul

/-- The rounded quotient. -/
def div (a b : Binary64) : Binary64 :=
  let sign := a.negative != b.negative
  if a.isNaN || b.isNaN then nan
  else if a.isInfinite then
    if b.isInfinite then nan else ofIndex sign infinityIndex
  else if b.isInfinite then ofIndex sign 0
  else if b.index = 0 then
    if a.index = 0 then nan else ofIndex sign infinityIndex
  else ofUnits sign (magnitudeUnits a.index * unitsPerOne) (magnitudeUnits b.index)

instance : Div Binary64 where
  div := div

/-- The product-and-sum `a * b + c` with a single rounding. -/
def fusedMulAdd (a b c : Binary64) : Binary64 :=
  if a.isNaN || b.isNaN || c.isNaN then nan
  else if a.isInfinite || b.isInfinite then a * b + c
  else if c.isInfinite then c
  else ofSignedUnits (a.units * b.units + c.units * unitsPerOne) unitsPerOne
    ((a.negative != b.negative) && c.negative)

/-- The rounded square root. With `n` the radicand scaled so that its root is in
units, `2 * r` or `2 * r + 1` half units stand for the root: the steps between
magnitudes of this size are many units wide, so whether the fraction is zero is
all that rounding asks of it. -/
def sqrt (x : Binary64) : Binary64 :=
  if x.isNaN then nan
  else if x.index = 0 then x
  else if x.negative then nan
  else if x.isInfinite then x
  else
    let n := magnitudeUnits x.index * unitsPerOne
    let r := integerRoot n
    ofUnits false (if r * r = n then 2 * r else 2 * r + 1) 2

end Binary64

end Paving
