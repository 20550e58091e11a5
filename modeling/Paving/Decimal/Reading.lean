import Paving.Binary64.Rounding

/-!
# Reading numbers

The texts accepted as numbers, and what they denote. A count is an optional `+`
and decimal digits, below `2^64`. A real number is an optional sign followed by
`inf`, `infinity` or `nan` in any case, or by decimal digits with an optional
point among or beside them and an optional exponent; it denotes the nearest
binary64 number.
-/

set_option autoImplicit false

namespace Paving

namespace Reading

/-- The value of a list of decimal digits. -/
def digitsValue (digits : List Char) : Nat :=
  digits.foldl (fun value c => 10 * value + (c.toNat - '0'.toNat)) 0

/-- The value of a non-empty list that holds only decimal digits. -/
def natural? (cs : List Char) : Option Nat :=
  if cs ≠ [] ∧ cs.all Char.isDigit then some (digitsValue cs) else none

/-- Whether a sign is negative, and what follows it. -/
def sign : List Char → Bool × List Char
  | '-' :: rest => (true, rest)
  | '+' :: rest => (false, rest)
  | cs => (false, cs)

/-- A signed whole number. -/
def integer? (cs : List Char) : Option Int :=
  let (negative, rest) := sign cs
  (natural? rest).map fun n => if negative then -(n : Int) else n

/-- The exponent that ends a number: nothing, or `e` and a whole number. -/
def exponent? : List Char → Option Int
  | [] => some 0
  | c :: rest => if c = 'e' ∨ c = 'E' then integer? rest else none

/-- The fraction digits after an optional point, and what follows them. -/
def fraction : List Char → List Char × List Char
  | '.' :: rest => rest.span Char.isDigit
  | cs => ([], cs)

/-- An unsigned decimal number: its digits without the point, and its exponent. -/
def decimal? (cs : List Char) : Option (Nat × Int) :=
  let (whole, afterWhole) := cs.span Char.isDigit
  let (places, afterPlaces) := fraction afterWhole
  if whole = [] ∧ places = [] then none
  else (exponent? afterPlaces).map fun e =>
    (digitsValue (whole ++ places), e - (places.length : Int))

/-- A real number. -/
def binary64? (text : String) : Option Binary64 :=
  let (negative, body) := sign text.toList
  let word := String.ofList (body.map Char.toLower)
  if word = "inf" ∨ word = "infinity" then
    some (if negative then Binary64.negInf else Binary64.posInf)
  else if word = "nan" then some Binary64.nan
  else (decimal? body).map fun (mantissa, exponent) =>
    Binary64.ofDecimal negative mantissa exponent

/-- A count below `2^64`. -/
def count? (text : String) : Option Nat :=
  let digits := match text.toList with
    | '+' :: rest => rest
    | cs => cs
  (natural? digits).filter (· < 0x10000000000000000)

end Reading

end Paving
