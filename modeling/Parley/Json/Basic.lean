import Parley.Table
import Parley.Decimal.Notation

/-!
# JSON values

Values of the data format: integers and floats are different numbers, objects
keep the order of their entries.  `Json.same` is equality of values, for which
the order of an object's entries does not matter.
-/

set_option autoImplicit false

namespace Parley

/-- A number of a JSON value. -/
inductive Number where
  /-- A whole number written without fraction and exponent. -/
  | int (n : Int)
  /-- Any other number, as the float it was read as. -/
  | float (x : Float)
  deriving DecidableEq

namespace Number

/-- The number as a float. -/
def toFloat : Number → Float
  | int n => Float.ofInt n
  | float x => x

/-- Equality within the integers and within the floats; an integer never equals a float. -/
def same : Number → Number → Bool
  | int a, int b => a = b
  | float a, float b => a == b
  | _, _ => false

/-- The text of the number. -/
def render : Number → List Char
  | int n => if n < 0 then '-' :: Decimal.digitsOf n.natAbs else Decimal.digitsOf n.natAbs
  | float x => (Decimal.renderFloat? Decimal.dataLayout x).getD ['n', 'u', 'l', 'l']

end Number

/-- A JSON value. -/
inductive Json where
  /-- The value `null`. -/
  | null
  /-- A truth value. -/
  | bool (b : Bool)
  /-- A number. -/
  | num (n : Number)
  /-- A string. -/
  | str (s : String)
  /-- A list of values. -/
  | arr (items : List Json)
  /-- Named values in order. -/
  | obj (fields : List (String × Json))
  deriving Inhabited

/-- The entries of an object, or the variables of a scope. -/
abbrev Fields : Type :=
  Table String Json

namespace Json

/-- The integer `n` as a value. -/
def int (n : Int) : Json :=
  .num (.int n)

/-- The count `n` as a value. -/
def nat (n : Nat) : Json :=
  int n

/-- A string as a value, or `null`. -/
def strOrNull : Option String → Json
  | some s => .str s
  | none => .null

/-- The entry `key` of an object. -/
def get? (key : String) : Json → Option Json
  | .obj fields => Table.get? key fields
  | _ => none

/-- The text of a string value. -/
def asStr? : Json → Option String
  | .str s => some s
  | _ => none

/-- The items of a list value. -/
def asArr? : Json → Option (List Json)
  | .arr items => some items
  | _ => none

/-- The entries of an object value. -/
def asObj? : Json → Option Fields
  | .obj fields => some fields
  | _ => none

/-- The value is `null`. -/
def isNull : Json → Bool
  | .null => true
  | _ => false

mutual

/-- Equality of values: lists in order, objects by key. -/
def same : Json → Json → Bool
  | .null, .null => true
  | .bool a, .bool b => a == b
  | .num a, .num b => a.same b
  | .str a, .str b => a == b
  | .arr a, .arr b => sameItems a b
  | .obj a, .obj b => a.length == b.length && sameFields a b
  | _, _ => false

/-- Equality of lists, item by item. -/
def sameItems : List Json → List Json → Bool
  | [], [] => true
  | a :: as, b :: bs => same a b && sameItems as bs
  | _, _ => false

/-- Every entry of the first object has an equal entry in the second. -/
def sameFields : List (String × Json) → List (String × Json) → Bool
  | [], _ => true
  | (key, a) :: as, other =>
    (match Table.get? key other with
      | some b => same a b
      | none => false) && sameFields as other

end

mutual

/-- The value with every repeated key of an object merged: it keeps its first place and its last
value. -/
def merged : Json → Json
  | .arr items => .arr (mergedItems items)
  | .obj fields => .obj (Table.ofEntries (mergedFields fields))
  | .null => .null
  | .bool b => .bool b
  | .num n => .num n
  | .str s => .str s

/-- The items of a list, each merged. -/
def mergedItems : List Json → List Json
  | [] => []
  | item :: items => merged item :: mergedItems items

/-- The entries of an object, each value merged. -/
def mergedFields : List (String × Json) → List (String × Json)
  | [] => []
  | (key, value) :: fields => (key, merged value) :: mergedFields fields

end

end Json

end Parley
