import Parley.Json.Basic

/-!
# TOML values

Values of configuration files, and the JSON value that each of them stands for.
In JSON the tables of a table follow its lists of tables, and these follow all
other entries; within these three groups the order is kept.
-/

set_option autoImplicit false

namespace Parley

/-- A value of a TOML document. -/
inductive Toml where
  /-- A string. -/
  | str (s : String)
  /-- A whole number of 64 bits. -/
  | int (n : Int)
  /-- A float; infinities and the undefined number are allowed. -/
  | float (x : Float)
  /-- A truth value. -/
  | bool (b : Bool)
  /-- A date, a time or both, in its written form. -/
  | moment (text : String)
  /-- A list. -/
  | arr (items : List Toml)
  /-- A table. -/
  | table (entries : List (String × Toml))
  deriving Inhabited

namespace Toml

/-- The value is a table. -/
def isTable : Toml → Bool
  | .table _ => true
  | _ => false

/-- The value is a list with a table among its items. -/
def isTableList : Toml → Bool
  | .arr items => items.any isTable
  | _ => false

/-- The key under which a date or time stands in JSON. -/
def momentKey : String :=
  "$__toml_private_datetime"

/-- The group of an entry in JSON: plain values, lists of tables, tables. -/
def group (value : Toml) : Nat :=
  if value.isTable then 2 else if value.isTableList then 1 else 0

/-- The entries of the three groups, one group after another. -/
def grouped (entries : List (Nat × String × Json)) : Fields :=
  (entries.filter (·.1 = 0) ++ entries.filter (·.1 = 1) ++ entries.filter (·.1 = 2)).map (·.2)

mutual

/-- The JSON value; a float that is no finite number becomes `null`. -/
def toJson : Toml → Json
  | .str s => .str s
  | .int n => .int n
  | .float x => if FloatValue.isFinite x then .num (.float x) else .null
  | .bool b => .bool b
  | .moment text => .obj [(momentKey, .str text)]
  | .arr items => .arr (itemsToJson items)
  | .table entries => .obj (grouped (entriesToJson entries))

/-- The JSON values of the items of a list. -/
def itemsToJson : List Toml → List Json
  | [] => []
  | item :: items => toJson item :: itemsToJson items

/-- The entries of a table with their groups and JSON values. -/
def entriesToJson : List (String × Toml) → List (Nat × String × Json)
  | [] => []
  | (key, value) :: entries => (group value, key, toJson value) :: entriesToJson entries

end

end Toml

end Parley
