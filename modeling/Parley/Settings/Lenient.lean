import Parley.Expr.Coercion
import Parley.Text.Fold
import Parley.Toml.Basic

/-!
# Lenient reading of settings

Settings come from files and from the environment, where everything is text, so
a value of one kind is also accepted where another kind is expected as long as
it can be understood as such.
-/

set_option autoImplicit false

namespace Parley

namespace Decimal

/-- A positive decimal without exponent, and without a fraction if it is whole. -/
def positional (d : Decimal) : List Char :=
  let digits := digitsOf d.digits
  let count := digits.length
  if 0 ≤ d.exponent then digits ++ List.replicate d.exponent.toNat '0'
  else
    let places := d.exponent.natAbs
    if places < count then digits.take (count - places) ++ '.' :: digits.drop (count - places)
    else '0' :: '.' :: (List.replicate (places - count) '0' ++ digits)

/-- The positional text of a float. -/
def positionalText (x : Float) : List Char :=
  match FloatValue.ofFloat? x with
  | none => if x.isNaN then ['N', 'a', 'N'] else if x < 0.0 then ['-', 'i', 'n', 'f'] else ['i', 'n', 'f']
  | some value =>
    let text := if value.mantissa = 0 then ['0'] else positional (shortest value)
    if value.negative then '-' :: text else text

end Decimal

namespace Lenient

/-- The number that digits write, if there are digits and nothing else. -/
def digits? (text : List Char) : Option Nat :=
  if !text.isEmpty && text.all Char.isDigit then some (Decimal.valueOf text) else none

/-- The natural number of 64 bits that a text writes. -/
def word? (text : List Char) : Option Nat :=
  let unsigned := match text with
    | '+' :: rest => rest
    | rest => rest
  match digits? unsigned with
  | some n => if n < Nat.pow 2 64 then some n else none
  | none => none

/-- The whole number of 64 bits with sign that a text writes. -/
def integer? (text : List Char) : Option Int :=
  match text with
  | '-' :: rest =>
    match digits? rest with
    | some n => if n ≤ Nat.pow 2 63 then some (-(n : Int)) else none
    | none => none
  | text =>
    match word? text with
    | some n => if n < Nat.pow 2 63 then some (n : Int) else none
    | none => none

/-- The words for truth. -/
def trueWords : List String :=
  ["true", "on", "yes"]

/-- The words for falsehood. -/
def falseWords : List String :=
  ["false", "off", "no"]

/-- A word without regard to case. -/
def lowered (s : String) : String :=
  onString Text.lower s

/-- The truth value that a word names. -/
def truthOfWord? (s : String) : Option Bool :=
  if trueWords.contains (lowered s) then some true
  else if falseWords.contains (lowered s) then some false
  else none

/-- The value that a text of the environment stands for. -/
def ofText (s : String) : Toml :=
  if lowered s = "true" then .bool true
  else if lowered s = "false" then .bool false
  else
    match integer? s.toList, Decimal.parse? s.toList with
    | some n, _ => .int n
    | none, some x => .float x
    | none, none => .str s

/-- A value as a string. -/
def string? : Toml → Option String
  | .str s => some s
  | .int n => some (String.ofList (Number.int n).render)
  | .float x => some (String.ofList (Decimal.positionalText x))
  | .bool b => some (if b then "true" else "false")
  | .moment text => some text
  | .arr _ => none
  | .table _ => none

/-- A value as a natural number; a float is rounded to the nearest one, halves upwards. -/
def natural? : Toml → Option Nat
  | .str s => ((truthOfWord? s).map Bool.toNat).or (word? s.toList)
  | .moment s => word? s.toList
  | .int n => if 0 ≤ n then some n.toNat else none
  | .float x => some x.round.toUInt64.toNat
  | .bool b => some b.toNat
  | .arr _ => none
  | .table _ => none

/-- A value as a natural number of 32 bits, of which higher bits are dropped. -/
def halfWord? (value : Toml) : Option Nat :=
  (natural? value).map (· % Nat.pow 2 32)

/-- A value as a truth value. -/
def truth? : Toml → Option Bool
  | .str s => if s = "1" then some true else if s = "0" then some false else truthOfWord? s
  | .int n => some (n ≠ 0)
  | .float x => some (x != 0.0)
  | .bool b => some b
  | .moment _ => none
  | .arr _ => none
  | .table _ => none

/-- A value as one of the fixed choices: its name, or a table with this name as its only key. -/
def choice? {α : Type} (choices : Table String α) : Toml → Option α
  | .str name => Table.get? name choices
  | .table [(name, _)] => Table.get? name choices
  | _ => none

/-- A field of a record, by its name in a table or by its place in a list; a default stands for a
field that is absent. -/
def field? {α : Type} (name : String) (place : Nat) (default : α) (read : Toml → Option α) :
    Toml → Option α
  | .table entries =>
    match Table.get? name entries with
    | some value => read value
    | none => some default
  | .arr items =>
    match items[place]? with
    | some value => read value
    | none => some default
  | _ => none

end Lenient

end Parley
