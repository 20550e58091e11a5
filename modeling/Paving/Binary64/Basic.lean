/-!
# Binary64 numbers

A binary64 number is a 64-bit word: one sign bit, then a 63-bit *index* that
numbers the non-negative data in increasing order, `0, 2^-1074, 2 * 2^-1074, …`
up to the largest finite number, then infinity, then the NaNs. Two views of a
word carry the whole theory.

* `rank` is the index with the sign attached. It is an integer, it orders every
  word that is not a NaN, and it identifies the two zeros.
* `units` is the exact value of a finite word in units of `2^-1074`, the least
  positive number. Every finite word is a whole number of units, so exact sums
  and products are integer arithmetic.

Comparison follows the rank and is false as soon as a NaN takes part. Boolean
equality `==` is numerical equality; propositional equality is equality of
words, which tells the two zeros apart.
-/

set_option autoImplicit false

namespace Paving

/-- A binary64 number, stored as its 64-bit word. -/
structure Binary64 where
  bits : UInt64
deriving DecidableEq, Inhabited

namespace Binary64

/-! ## Fields of a word -/

/-- The weight of the sign bit, `2^63`. -/
def signWeight : Nat :=
  0x8000000000000000

/-- The number of indices in one binade, `2^52`. -/
def binade : Nat :=
  0x10000000000000

/-- The index of infinity; the indices below it are the finite magnitudes. -/
def infinityIndex : Nat :=
  0x7ff0000000000000

/-- The sign bit. -/
def negative (x : Binary64) : Bool :=
  decide (signWeight ≤ x.bits.toNat)

/-- The word without its sign: the position of the magnitude among all magnitudes. -/
def index (x : Binary64) : Nat :=
  x.bits.toNat % signWeight

/-- The word with the given sign and index. -/
def ofIndex (negative : Bool) (index : Nat) : Binary64 :=
  ⟨UInt64.ofNat (if negative then signWeight + index else index)⟩

/-! ## Constants -/

/-- Positive zero. -/
def zero : Binary64 :=
  ⟨0⟩

/-- One half. -/
def half : Binary64 :=
  ⟨0x3fe0000000000000⟩

/-- Positive infinity. -/
def posInf : Binary64 :=
  ⟨0x7ff0000000000000⟩

/-- Negative infinity. -/
def negInf : Binary64 :=
  ⟨0xfff0000000000000⟩

/-- The quiet NaN that undefined operations return. -/
def nan : Binary64 :=
  ⟨0x7ff8000000000000⟩

/-- The largest finite number, `(2 - 2^-52) * 2^1023`. -/
def maxFinite : Binary64 :=
  ⟨0x7fefffffffffffff⟩

/-- The least positive normal number, `2^-1022`. -/
def minNormal : Binary64 :=
  ⟨0x0010000000000000⟩

/-! ## Classes -/

/-- A word whose index lies beyond infinity is not a number. -/
def isNaN (x : Binary64) : Bool :=
  decide (infinityIndex < x.index)

/-- Either infinity. -/
def isInfinite (x : Binary64) : Bool :=
  decide (x.index = infinityIndex)

/-- Neither an infinity nor a NaN. -/
def isFinite (x : Binary64) : Bool :=
  decide (x.index < infinityIndex)

/-! ## Order -/

/-- The index with its sign. Both zeros have rank `0`. -/
def rank (x : Binary64) : Int :=
  if x.negative then -(x.index : Int) else (x.index : Int)

/-- Strict order by rank; a NaN is related to nothing. -/
instance : LT Binary64 where
  lt a b := a.isNaN = false ∧ b.isNaN = false ∧ a.rank < b.rank

/-- Order by rank; a NaN is related to nothing, not even to itself. -/
instance : LE Binary64 where
  le a b := a.isNaN = false ∧ b.isNaN = false ∧ a.rank ≤ b.rank

instance (a b : Binary64) : Decidable (a < b) :=
  inferInstanceAs (Decidable (a.isNaN = false ∧ b.isNaN = false ∧ a.rank < b.rank))

instance (a b : Binary64) : Decidable (a ≤ b) :=
  inferInstanceAs (Decidable (a.isNaN = false ∧ b.isNaN = false ∧ a.rank ≤ b.rank))

/-- Numerical equality: the zeros are equal, a NaN equals nothing. -/
instance : BEq Binary64 where
  beq a b := !a.isNaN && !b.isNaN && decide (a.rank = b.rank)

/-- The larger of two numbers; of two equal ones, the first. -/
def larger (a b : Binary64) : Binary64 :=
  if a < b then b else a

/-- The smaller of two numbers; of two equal ones, the first. -/
def smaller (a b : Binary64) : Binary64 :=
  if b < a then b else a

/-! ## Sign -/

/-- Negation flips the sign bit, also of zeros and NaNs. -/
instance : Neg Binary64 where
  neg x := ofIndex (!x.negative) x.index

/-- The number without its sign. -/
def abs (x : Binary64) : Binary64 :=
  ofIndex false x.index

/-! ## Exact values -/

/-- The exact magnitude at a finite index, in units of `2^-1074`. The indices of
the first binade are the subnormal multiples of the unit; each binade after the
second doubles the step. -/
def magnitudeUnits (index : Nat) : Nat :=
  if index < binade then index
  else (binade + index % binade) <<< (index / binade - 1)

/-- The exact value of a finite word in units of `2^-1074`. -/
def units (x : Binary64) : Int :=
  if x.negative then -(magnitudeUnits x.index : Int) else (magnitudeUnits x.index : Int)

/-- How many units make `1`: the exact value of a finite `x` is `x.units / unitsPerOne`. -/
def unitsPerOne : Nat :=
  1 <<< 1074

end Binary64

end Paving
