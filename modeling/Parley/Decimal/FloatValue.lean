/-!
# Finite floats as exact integers

A finite binary64 value is an integer times a power of two.  All questions
about its exact value (is it whole, what is its remainder, which decimals are
close to it) are answered on that pair, in `Nat` and `Int` arithmetic.
-/

set_option autoImplicit false

namespace Parley

/-- The value `± mantissa * 2 ^ exponent`. -/
structure FloatValue where
  /-- The value stands below zero, or is the zero below zero. -/
  negative : Bool
  /-- The whole-number factor. -/
  mantissa : Nat
  /-- The power of two. -/
  exponent : Int
  deriving DecidableEq, Repr

namespace FloatValue

/-- The exact value of a float, unless it is infinite or not a number. -/
def ofFloat? (x : Float) : Option FloatValue :=
  let bits := x.toBits
  let sign := bits >>> 63 == 1
  let power := ((bits >>> 52) &&& 0x7FF).toNat
  let fraction := (bits &&& 0xFFFFFFFFFFFFF).toNat
  if power = 0x7FF then none
  else if power = 0 then some ⟨sign, fraction, -1074⟩
  else some ⟨sign, Nat.pow 2 52 + fraction, (power : Int) - 1075⟩

/-- The whole number with this value, if there is one. -/
def toInt? (x : FloatValue) : Option Int :=
  let magnitude : Option Nat :=
    if 0 ≤ x.exponent then some (x.mantissa * Nat.pow 2 x.exponent.toNat)
    else if x.mantissa % Nat.pow 2 (-x.exponent).toNat = 0 then
      some (x.mantissa / Nat.pow 2 (-x.exponent).toNat)
    else none
  magnitude.map fun n => if x.negative then -(n : Int) else n

/-- The remainder of the division of `x` by `y`, with the quotient cut towards zero and the sign of
`x`.  The divisor is not zero. -/
def remainder (x y : FloatValue) : FloatValue :=
  let exponent := min x.exponent y.exponent
  let a := x.mantissa * Nat.pow 2 (x.exponent - exponent).toNat
  let b := y.mantissa * Nat.pow 2 (y.exponent - exponent).toNat
  ⟨x.negative, a % b, exponent⟩

/-- The bits of a positive value below `2 ^ 53 * 2 ^ exponent` for an exponent of at least `-1074`,
with the leading one moved to its place. -/
def bitsOf (mantissa : Nat) (exponent : Int) : UInt64 :=
  let width := Nat.log2 mantissa
  let shift := min (52 - width) (exponent + 1074).toNat
  let scaled := mantissa * Nat.pow 2 shift
  let power := exponent - (shift : Int)
  if scaled < Nat.pow 2 52 then UInt64.ofNat scaled
  else UInt64.ofNat ((power + 1075).toNat * Nat.pow 2 52 + (scaled - Nat.pow 2 52))

/-- The float with this value, for a value that a float can hold: a mantissa below `2 ^ 53` and an
exponent of a finite float. -/
def toFloat (x : FloatValue) : Float :=
  let magnitude := if x.mantissa = 0 then 0.0 else Float.ofBits (bitsOf x.mantissa x.exponent)
  if x.negative then -magnitude else magnitude

/-- The whole number that a float holds exactly, if it holds one. -/
def wholeOf? (x : Float) : Option Int :=
  (ofFloat? x).bind toInt?

/-- The float holds a finite number. -/
def isFinite (x : Float) : Bool :=
  (ofFloat? x).isSome

/-- The remainder of a division of floats with the quotient cut towards zero, exact; a divisor of
zero, or an operand that is no finite number, has none. -/
def remainderOf? (x y : Float) : Option Float :=
  match ofFloat? x, ofFloat? y with
  | some a, some b => if b.mantissa = 0 then none else some (a.remainder b).toFloat
  | _, _ => none

end FloatValue

end Parley
