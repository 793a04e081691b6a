import Parley.Decimal.FloatValue

/-!
# The fewest decimal digits that read back

For a positive dyadic value the search looks at the decimal grids of one, two,
three and more digits.  On each grid the two neighbours of the value are tested
for lying among the reals that round to the value; the first grid with a hit
gives the digits, and of two hits the closer one is taken.
-/

set_option autoImplicit false

namespace Parley

/-- The value `digits * 10 ^ exponent`. -/
structure Decimal where
  /-- The digits as one number. -/
  digits : Nat
  /-- The power of ten. -/
  exponent : Int
  deriving DecidableEq, Repr

namespace Decimal

/-- Compares `a * 10 ^ i` with `b * 2 ^ j`, exactly. -/
def compareScaled (a : Nat) (i : Int) (b : Nat) (j : Int) : Ordering :=
  compare (a * Nat.pow 10 i.toNat * Nat.pow 2 (-j).toNat)
    (b * Nat.pow 2 j.toNat * Nat.pow 10 (-i).toNat)

/-- The gap to the float below `x` is half the gap to the float above: `x` is a power of two above
the least normal one. -/
def narrowBelow (x : FloatValue) : Bool :=
  x.mantissa = Nat.pow 2 52 && decide (-1074 < x.exponent)

/-- The decimal lies among the reals that round to `x`, to nearest with ties to even. -/
def readsBack (x : FloatValue) (d : Decimal) : Bool :=
  let low := if narrowBelow x then 4 * x.mantissa - 1 else 4 * x.mantissa - 2
  let high := 4 * x.mantissa + 2
  let closed := x.mantissa % 2 = 0
  let aboveLow := compareScaled d.digits d.exponent low (x.exponent - 2)
  let belowHigh := compareScaled d.digits d.exponent high (x.exponent - 2)
  (aboveLow == .gt || (closed && aboveLow == .eq)) && (belowHigh == .lt || (closed && belowHigh == .eq))

/-- The largest whole multiple of `10 ^ scale` that does not exceed the value. -/
def floorAt (x : FloatValue) (scale : Int) : Nat :=
  (x.mantissa * Nat.pow 2 x.exponent.toNat * Nat.pow 10 (-scale).toNat) /
    (Nat.pow 2 (-x.exponent).toNat * Nat.pow 10 scale.toNat)

/-- The least `k` with the value below `10 ^ k`, found among `n + 1` candidates from `k` upwards. -/
def scaleFrom (x : FloatValue) : Nat → Int → Int
  | 0, k => k
  | n + 1, k => if compareScaled 1 k x.mantissa x.exponent == .gt then k else scaleFrom x n (k + 1)

/-- The least `k` with the value below `10 ^ k`, for a positive value. -/
def scale (x : FloatValue) : Int :=
  let bits : Int := (Nat.log2 x.mantissa : Int) + x.exponent
  scaleFrom x 6 (bits * 30103 / 100000 - 1)

/-- The neighbour of the value on the grid of `10 ^ exponent` that reads back and is closest; of two
equally close ones the even one. -/
def onGrid? (x : FloatValue) (exponent : Int) : Option Decimal :=
  let low := floorAt x exponent
  let below : Decimal := ⟨low, exponent⟩
  let above : Decimal := ⟨low + 1, exponent⟩
  match readsBack x below, readsBack x above with
  | false, false => none
  | true, false => some below
  | false, true => some above
  | true, true =>
    match compareScaled (2 * low + 1) exponent (2 * x.mantissa) x.exponent with
    | .gt => some below
    | .lt => some above
    | .eq => some (if low % 2 = 0 then below else above)

/-- The first grid with a hit among those of `count` successive digit counts. -/
def search (x : FloatValue) (k : Int) : (count digits : Nat) → Option Decimal
  | 0, _ => none
  | count + 1, digits =>
    match onGrid? x (k - digits) with
    | some d => some d
    | none => search x k count (digits + 1)

/-- Moves trailing zeros of the digits into the exponent, at most `n` of them. -/
def stripZeros : Nat → Decimal → Decimal
  | 0, d => d
  | n + 1, d =>
    if d.digits ≠ 0 ∧ d.digits % 10 = 0 then stripZeros n ⟨d.digits / 10, d.exponent + 1⟩ else d

/-- The exact decimal value of `x`. -/
def exact (x : FloatValue) : Decimal :=
  ⟨x.mantissa * Nat.pow 2 x.exponent.toNat * Nat.pow 5 (-x.exponent).toNat,
    -((-x.exponent).toNat : Int)⟩

/-- The fewest digits that read back as the positive value `x`, and the closest such number. -/
def shortest (x : FloatValue) : Decimal :=
  stripZeros 400 ((search x (scale x) 17 1).getD (exact x))

end Decimal

end Parley
