import Parley.Text.Basic
import Parley.Json.Printer

/-!
# Loose reading of values

How expressions see values of any kind: as a truth value, as a number, as text,
and as equal or not.
-/

set_option autoImplicit false

namespace Parley

namespace Decimal

/-- The digits of a fraction, and the text after them. -/
def fractionPart : List Char → List Char × List Char
  | '.' :: text => (text.takeWhile Char.isDigit, text.dropWhile Char.isDigit)
  | text => ([], text)

/-- The exponent that a whole text writes: a sign and at least one digit, or nothing at all. -/
def exponentPart? : List Char → Option Int
  | [] => some 0
  | mark :: text =>
    if mark = 'e' || mark = 'E' then
      let (negative, digits) := match text with
        | '-' :: digits => (true, digits)
        | '+' :: digits => (false, digits)
        | digits => (false, digits)
      if digits.isEmpty || !digits.all Char.isDigit then none
      else
        let magnitude : Int := valueOf digits
        some (if negative then -magnitude else magnitude)
    else none

/-- The finite float that a decimal text writes: a sign, digits with or without a point, and an
exponent.  At least one digit stands before the exponent. -/
def parse? (text : List Char) : Option Float :=
  let (negative, unsigned) := match text with
    | '-' :: rest => (true, rest)
    | '+' :: rest => (false, rest)
    | rest => (false, rest)
  let whole := unsigned.takeWhile Char.isDigit
  let (fraction, rest) := fractionPart (unsigned.dropWhile Char.isDigit)
  if whole.isEmpty && fraction.isEmpty then none
  else
    match exponentPart? rest with
    | none => none
    | some exponent =>
      let x := nearest (valueOf (whole ++ fraction)) (exponent - fraction.length)
      if FloatValue.isFinite x then some (if negative then -x else x) else none

end Decimal

namespace Json

/-- Whole floats below this bound are integers as values. -/
def wholeBound : Nat :=
  Nat.pow 2 53

/-- The value of a computed float: an integer if it is whole and below the bound, `null` if it is no
finite number. -/
def ofFloat (x : Float) : Json :=
  match FloatValue.wholeOf? x with
  | some n => if n.natAbs < wholeBound then int n else .num (.float x)
  | none => if FloatValue.isFinite x then .num (.float x) else .null

/-- The truth of a value: `null`, `false`, zero and the empty string are false. -/
def isTruthy : Json → Bool
  | .null => false
  | .bool b => b
  | .num n => n.toFloat != 0.0
  | .str s => !s.isEmpty
  | .arr _ => true
  | .obj _ => true

/-- The number that a value can be read as: numbers, truth values, and decimal text between blanks. -/
def toNumber? : Json → Option Float
  | .num n => some n.toFloat
  | .bool b => some (if b then 1.0 else 0.0)
  | .str s => Decimal.parse? (Text.trim s.toList)
  | _ => none

/-- The text of a value in a message: a string as it is, nothing for `null`, a whole float below the
bound without fraction, and JSON text for everything else. -/
def display : Json → String
  | .null => ""
  | .str s => s
  | .num (.float x) =>
    match FloatValue.wholeOf? x with
    | some n => if n.natAbs < wholeBound then text (int n) else text (.num (.float x))
    | none => text (.num (.float x))
  | value => text value

/-- Equality without conversion; numbers are compared as floats. -/
def strictEq : Json → Json → Bool
  | .num a, .num b => a.toFloat == b.toFloat
  | a, b => same a b

/-- Equality with conversion: `null` equals only `null`; else values that are both numeric are
compared as numbers and all others by their text. -/
def looseEq (a b : Json) : Bool :=
  if strictEq a b then true
  else if a.isNull || b.isNull then false
  else
    match toNumber? a, toNumber? b with
    | some x, some y => x == y
    | _, _ => display a == display b

end Json

end Parley
