/-!
# Ordered tables

A table is a list of keyed entries in the order in which the keys were first
set.  Setting a key that is present changes its value in place; a key that is
absent is added at the end.  Two further operations serve tables that are kept
in ascending order of their keys.
-/

set_option autoImplicit false

namespace Parley

/-- Keyed entries in a fixed order. -/
abbrev Table (κ α : Type) : Type :=
  List (κ × α)

namespace Table

variable {κ α : Type} [DecidableEq κ]

/-- The value of the first entry with this key. -/
def get? (key : κ) : Table κ α → Option α
  | [] => none
  | (k, v) :: entries => if k = key then some v else get? key entries

/-- Some entry has this key. -/
def has (key : κ) (table : Table κ α) : Bool :=
  (get? key table).isSome

/-- The table with the value of `key` set: in place if the key is present, else at the end. -/
def set (key : κ) (value : α) : Table κ α → Table κ α
  | [] => [(key, value)]
  | (k, v) :: entries => if k = key then (k, value) :: entries else (k, v) :: set key value entries

/-- The table with `key` set only if it is absent. -/
def setDefault (key : κ) (value : α) (table : Table κ α) : Table κ α :=
  if has key table then table else set key value table

/-- The table with every entry of `upper` set, one after another. -/
def overlay (upper table : Table κ α) : Table κ α :=
  upper.foldl (fun t entry => set entry.1 entry.2 t) table

/-- The table with every entry of `lower` set whose key is absent, one after another. -/
def underlay (lower table : Table κ α) : Table κ α :=
  lower.foldl (fun t entry => setDefault entry.1 entry.2 t) table

/-- The entries set one after another in an empty table: a repeated key keeps its first place and
its last value. -/
def ofEntries (entries : List (κ × α)) : Table κ α :=
  overlay entries []

/-- The keys in order. -/
def keys (table : Table κ α) : List κ :=
  table.map Prod.fst

/-- The table with `key` set, in ascending order of the keys if it was so before. -/
def setSorted (below : κ → κ → Bool) (key : κ) (value : α) : Table κ α → Table κ α
  | [] => [(key, value)]
  | (k, v) :: entries =>
    if k = key then (k, value) :: entries
    else if below key k then (key, value) :: (k, v) :: entries
    else (k, v) :: setSorted below key value entries

/-- The entries in ascending order of their keys; a repeated key keeps its last value. -/
def sorted (below : κ → κ → Bool) (entries : List (κ × α)) : Table κ α :=
  entries.foldl (fun t entry => setSorted below entry.1 entry.2 t) []

end Table

/-- One string stands before another in the order of their characters' code points. -/
def textBelow (a b : String) : Bool :=
  decide (a < b)

end Parley
