import Paving.Binary64.Arithmetic

/-!
# Directed rounding

Interval bounds are rounded outward. Each operation here first computes the
result rounded to nearest, then a term for the error it made, and moves to the
neighbouring number if the term says that the result lies on the wrong side of
the exact one. Where the term is the exact error, the result is the closest bound,
and an exact result is kept.

A `Direction` says which side is safe: `down` for a lower bound, `up` for an
upper bound. The two cases of every operation are reflections of each other, so
each operation is written once for both.

The error term is not used for sums, products and quotients that overflow, which
are cut back to a finite number where one is safe, nor for products and quotients
that are subnormal. These are moved outward in any case, so that an exact one is
not kept. Everywhere else the term is trusted, although it can be wrong there: it is
undefined for some sums near the largest number, and the residual of a product, a
quotient or a root of small numbers can vanish. The result then may lie on the wrong
side.
-/

set_option autoImplicit false

namespace Paving

namespace Binary64

/-! ## Neighbours -/

/-- The least number above `x`, by arithmetic on the word. A NaN and positive
infinity have none and are returned. -/
def nextUp (x : Binary64) : Binary64 :=
  if x.isNaN || x == posInf then x
  else if x == zero then ⟨1⟩
  else if zero < x then ⟨x.bits + 1⟩
  else ⟨x.bits - 1⟩

/-- The greatest number below `x`. A NaN and negative infinity have none and
are returned. -/
def nextDown (x : Binary64) : Binary64 :=
  -nextUp (-x)

/-! ## Error terms -/

/-- The rounding error of `s = a + b`, recovered from `s` by sums alone. It is a NaN if `s - a`
overflows. -/
def twoSumError (a b s : Binary64) : Binary64 :=
  let virtual := s - a
  (a - (s - virtual)) + (b - virtual)

/-- A number with the sign of `a / b - q`, or zero if it is too small to be represented. -/
def quotientError (a b q : Binary64) : Binary64 :=
  let residual := -fusedMulAdd q b (-a)
  if zero < b then residual else -residual

end Binary64

/-- The side toward which a bound is rounded. -/
inductive Direction where
  | down
  | up
deriving DecidableEq

namespace Direction

open Binary64

/-- The neighbour of `x` in this direction. -/
def step : Direction → Binary64 → Binary64
  | down, x => x.nextDown
  | up, x => x.nextUp

/-- The exact result minus the rounded one shows whether the rounded one lies on
the wrong side. -/
def wrongSide : Direction → Binary64 → Bool
  | down, error => decide (error < zero)
  | up, error => decide (zero < error)

/-- Steps to the neighbour if the error shows that `x` lies on the wrong side. -/
def correct (d : Direction) (x error : Binary64) : Binary64 :=
  if d.wrongSide error then d.step x else x

/-- A finite exact result that overflowed past the safe side is bounded by the
largest finite number. -/
def saturate : Direction → Binary64 → Binary64
  | down, x => if x == posInf then maxFinite else x
  | up, x => if x == negInf then -maxFinite else x

/-- The bound for a rounded product or quotient `r` whose error term cannot be
trusted: undefined, overflowed, or subnormal with a non-zero exact value. -/
def settle? (d : Direction) (r : Binary64) (finiteOperands nonzero : Bool) : Option Binary64 :=
  if r.isNaN then some r
  else if r.isInfinite then some (if finiteOperands then d.saturate r else r)
  else if nonzero && decide (r.abs < minNormal) then some (d.step r)
  else none

/-- The sum rounded in this direction. -/
def add (d : Direction) (a b : Binary64) : Binary64 :=
  let s := a + b
  if s.isInfinite then
    if a.isFinite && b.isFinite then d.saturate s else s
  else d.correct s (twoSumError a b s)

/-- The difference rounded in this direction. -/
def sub (d : Direction) (a b : Binary64) : Binary64 :=
  d.add a (-b)

/-- The product rounded in this direction. -/
def mul (d : Direction) (a b : Binary64) : Binary64 :=
  let p := a * b
  match d.settle? p (a.isFinite && b.isFinite) (!(a == zero) && !(b == zero)) with
  | some bound => bound
  | none => d.correct p (fusedMulAdd a b (-p))

/-- The quotient rounded in this direction. -/
def div (d : Direction) (a b : Binary64) : Binary64 :=
  let q := a / b
  let finite := a.isFinite && b.isFinite
  match d.settle? q finite (!(a == zero)) with
  | some bound => bound
  | none => if finite then d.correct q (quotientError a b q) else q

/-- The square root rounded in this direction. -/
def sqrt (d : Direction) (x : Binary64) : Binary64 :=
  let r := x.sqrt
  if !r.isFinite || r == zero then r
  else d.correct r (-fusedMulAdd r r (-x))

end Direction

end Paving
