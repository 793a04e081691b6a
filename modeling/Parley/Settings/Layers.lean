import Parley.Text.Basic
import Parley.Toml.Basic

/-!
# Layers of settings

A layer is a table of settings.  Setting a table over another one sets its
entries one by one; anything else takes the place of what was there.
-/

set_option autoImplicit false

namespace Parley

namespace Layer

/-- The entries of a table; anything else has none. -/
def entriesOf : Toml → List (String × Toml)
  | .table entries => entries
  | _ => []

/-- The table below a key, or what else is there; an empty table if there is nothing. -/
def below (key : String) (layer : Toml) : Toml :=
  (Table.get? key (entriesOf layer)).getD (.table [])

mutual

/-- A layer with a value set under a key. -/
def setKey (key : String) : (value layer : Toml) → Toml
  | .table entries, layer =>
    .table (Table.set key (setEntries entries (below key layer)) (entriesOf layer))
  | .str s, layer => .table (Table.set key (.str s) (entriesOf layer))
  | .int n, layer => .table (Table.set key (.int n) (entriesOf layer))
  | .float x, layer => .table (Table.set key (.float x) (entriesOf layer))
  | .bool b, layer => .table (Table.set key (.bool b) (entriesOf layer))
  | .moment text, layer => .table (Table.set key (.moment text) (entriesOf layer))
  | .arr items, layer => .table (Table.set key (.arr items) (entriesOf layer))

/-- A layer with several values set under their keys. -/
def setEntries : (entries : List (String × Toml)) → (layer : Toml) → Toml
  | [], layer => layer
  | (key, value) :: entries, layer => setEntries entries (setKey key value layer)

end

/-- A layer with a value set under a path of keys. -/
def setPath : (path : List String) → (value layer : Toml) → Toml
  | [], _, layer => layer
  | [key], value, layer => setKey key value layer
  | key :: path, value, layer =>
    .table (Table.set key (setPath path value (below key layer)) (entriesOf layer))

/-- The path that a key writes: its parts between points, unless one of them is empty. -/
def pathOf (key : String) : List String :=
  let parts := Text.splitOn (· = '.') key.toList
  if parts.any List.isEmpty then [key] else parts.map String.ofList

/-- A layer with another one over it, whose keys may write paths. -/
def overlay (upper : List (String × Toml)) (layer : Toml) : Toml :=
  upper.foldl (fun layer entry => setPath (pathOf entry.1) entry.2 layer) layer

end Layer

end Parley
