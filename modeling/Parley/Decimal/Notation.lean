import Parley.Decimal.Shortest

/-!
# Decimal text

How a float is laid out once its digits are chosen, and how decimal digits are
read: once with one rounding, and once in the two roundings of a reader that
keeps at most the digits of a 64-bit word and scales by a power of ten.
-/

set_option autoImplicit false

namespace Parley

namespace Decimal

/-- The decisions of a layout: which numbers are written without an exponent, and how the exponent
is marked. -/
structure Layout where
  /-- The least exponent of the leading digit that is written positionally. -/
  plainFrom : Int
  /-- The least exponent of the leading digit above them that is not. -/
  plainBelow : Int
  /-- What stands between the digits and a positive exponent. -/
  positiveMark : List Char
  /-- What stands between the digits and a negative exponent. -/
  negativeMark : List Char

/-- Numbers in data are positional from `0.00001` below `10 ^ 16`, always with a fraction, and have
an exponent with its sign beyond. -/
def dataLayout : Layout :=
  ⟨-5, 16, ['e', '+'], ['e', '-']⟩

/-- The digits of a number in base ten. -/
def digitsOf (n : Nat) : List Char :=
  Nat.toDigits 10 n

/-- The text of a number in base ten. -/
def text (n : Nat) : String :=
  String.ofList (digitsOf n)

/-- A positive decimal in the given layout. -/
def render (layout : Layout) (d : Decimal) : List Char :=
  let digits := digitsOf d.digits
  let count := digits.length
  let leading : Int := d.exponent + (count : Int) - 1
  if layout.plainFrom ≤ leading && leading < layout.plainBelow then
    if 0 ≤ d.exponent then
      digits ++ List.replicate d.exponent.toNat '0' ++ ['.', '0']
    else if 0 ≤ leading then
      digits.take (leading.toNat + 1) ++ '.' :: digits.drop (leading.toNat + 1)
    else
      '0' :: '.' :: (List.replicate ((-leading).toNat - 1) '0' ++ digits)
  else
    let mantissa := match digits with
      | [] => []
      | [only] => [only]
      | first :: others => first :: '.' :: others
    let mark := if leading < 0 then layout.negativeMark else layout.positiveMark
    mantissa ++ mark ++ digitsOf leading.natAbs

/-- The text of a finite float; a value that is no finite number has none. -/
def renderFloat? (layout : Layout) (x : Float) : Option (List Char) :=
  (FloatValue.ofFloat? x).map fun value =>
    let sign := if value.negative then ['-'] else []
    if value.mantissa = 0 then sign ++ ['0', '.', '0'] else sign ++ render layout (shortest value)

/-- The number that a list of decimal digits writes. -/
def valueOf (digits : List Char) : Nat :=
  digits.foldl (fun n c => 10 * n + (c.toNat - '0'.toNat)) 0

/-- The float nearest to `digits * 10 ^ exponent`, or infinity beyond the largest float.  Powers that
lie far outside the range of floats are not computed. -/
def nearest (digits : Nat) (exponent : Int) : Float :=
  let width : Int := (digitsOf digits).length
  if digits = 0 || exponent + width < -400 then 0.0
  else if 400 < exponent + width then 1.0 / 0.0
  else Float.ofScientific digits (exponent < 0) exponent.natAbs

/-- The largest number of a 64-bit word. -/
def wordLimit : Nat :=
  Nat.pow 2 64 - 1

/-- `10 ^ n` as a float, for `n` at most 308. -/
def powerOfTen (n : Nat) : Float :=
  Float.ofScientific 1 false n

/-- The float `significand * 10 ^ exponent` in at most two roundings: the significand becomes a
float, which is then multiplied or divided by a power of ten.  None if the result is too large. -/
def scaled? (significand : Nat) (exponent : Int) : Option Float :=
  let f := Float.ofNat significand
  if 0 ≤ exponent then
    if exponent ≤ 308 then
      let product := f * powerOfTen exponent.toNat
      if FloatValue.isFinite product then some product else none
    else if significand = 0 then some 0.0 else none
  else if -exponent ≤ 308 then some (f / powerOfTen (-exponent).toNat)
  else if -exponent ≤ 616 then some (f / powerOfTen 308 / powerOfTen (-exponent - 308).toNat)
  else some 0.0

/-- The digits that fit a 64-bit word: the number they write, continued from `significand`, and the
digits that are left over. -/
def fitDigits : (significand : Nat) → List Char → Nat × List Char
  | significand, [] => (significand, [])
  | significand, c :: digits =>
    let next := 10 * significand + (c.toNat - '0'.toNat)
    if wordLimit < next then (significand, c :: digits) else fitDigits next digits

/-- The float that digits with a fraction and an exponent write, read in two roundings.  Digits of
the whole part that do not fit a word raise the exponent, those of the fraction are dropped. -/
def readScaled? (whole fraction : List Char) (exponent : Int) : Option Float :=
  let (front, overflow) := fitDigits 0 whole
  let (significand, unused) := fitDigits front fraction
  let taken := fraction.length - unused.length
  scaled? significand (exponent + overflow.length - taken)

end Decimal

end Parley
