import Paving.Box.Basic
import Paving.Decimal.Fixed

/-!
# Displaying intervals and boxes

A precision sets the least and the greatest number of fraction digits of a
displayed bound. Bounds are rounded to the greatest number of digits and lose
trailing zeros down to the least number. Texts have a limit of 65535 fraction
digits; beyond it a finite bound cannot be displayed.
-/

set_option autoImplicit false

namespace Paving

/-- The least and the greatest number of fraction digits of a bound. -/
structure Precision where
  minDigits : Nat
  maxDigits : Nat
  ordered : minDigits ≤ maxDigits
deriving DecidableEq

/-- A precision whose least number of digits exceeds the greatest. -/
inductive PrecisionError where
  | reversed (least greatest : Nat)
deriving DecidableEq

namespace PrecisionError

/-- The wording of the cause. -/
def message : PrecisionError → String
  | reversed least greatest =>
    s!"min_digits ({least}) must not exceed max_digits ({greatest})"

/-- The cause by name, with its numbers. -/
def detail : PrecisionError → String
  | reversed least greatest => s!"Reversed \x7b min: {least}, max: {greatest} \x7d"

end PrecisionError

namespace Precision

/-- The precision from `least` to `greatest` digits, if they are in order. -/
def of (least greatest : Nat) : Except PrecisionError Precision :=
  if h : least ≤ greatest then .ok ⟨least, greatest, h⟩
  else .error (.reversed least greatest)

/-- Two to four digits. -/
def standard : Precision :=
  ⟨2, 4, by decide⟩

/-- The precision with another greatest number of digits, the least one lowered
to it if need be. -/
def withMax (p : Precision) (greatest : Nat) : Precision :=
  ⟨Nat.min p.minDigits greatest, greatest, Nat.min_le_right _ _⟩

/-- The greatest number of fraction digits of any text. -/
def limit : Nat :=
  65535

/-- The text of a bound. -/
def boundText (p : Precision) (value : Binary64) : String :=
  if value == Binary64.posInf then "inf"
  else if value == Binary64.negInf then "-inf"
  else String.ofList ((value.fixed p.maxDigits).trim p.minDigits).text

/-- Whether a bound can be displayed within the limit. -/
def displays (p : Precision) (value : Binary64) : Bool :=
  decide (p.maxDigits ≤ limit) || !value.isFinite

end Precision

namespace Interval

/-- The text of an interval. -/
def text (p : Precision) (x : Interval) : String :=
  if x.isEmpty then "[empty]"
  else "[" ++ p.boundText x.lb ++ "," ++ p.boundText x.ub ++ "]"

/-- Whether both bounds can be displayed within the limit. -/
def displayable (p : Precision) (x : Interval) : Bool :=
  p.displays x.lb && p.displays x.ub

/-- The text of an interval, if it can be displayed within the limit. -/
def display? (p : Precision) (x : Interval) : Option String :=
  if x.displayable p then some (x.text p) else none

end Interval

namespace Box

/-- The text of a box. -/
def text (p : Precision) (b : Box) : String :=
  "(" ++ " ; ".intercalate (b.components.map (Interval.text p)) ++ ")"

/-- Whether all components can be displayed within the limit. -/
def displayable (p : Precision) (b : Box) : Bool :=
  b.components.all (Interval.displayable p)

/-- The text of a box, if it can be displayed within the limit. -/
def display? (p : Precision) (b : Box) : Option String :=
  if b.displayable p then some (b.text p) else none

end Box

end Paving
