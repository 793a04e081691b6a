import Parley.Json.Basic

/-!
# Scopes

The variables of running flows.  Frames refer to a scope by its number; a flow
that is called as a part of another shares the scope of its caller, and every
other activation gets a scope of its own.  Numbers are not used twice.
-/

set_option autoImplicit false

namespace Parley

/-- The scopes of a session. -/
structure Scopes where
  /-- The number of the next scope. -/
  nextId : Nat
  /-- The variables of each scope, in ascending order of the numbers. -/
  entries : Table Nat Fields

namespace Scopes

/-- No scopes. -/
def empty : Scopes :=
  ⟨0, []⟩

/-- One number is below another. -/
def idBelow (a b : Nat) : Bool :=
  decide (a < b)

/-- The variables of a scope. -/
def get? (scopes : Scopes) (id : Nat) : Option Fields :=
  Table.get? id scopes.entries

/-- There is a scope with this number. -/
def has (scopes : Scopes) (id : Nat) : Bool :=
  Table.has id scopes.entries

/-- The scopes with the variables of one of them replaced. -/
def put (scopes : Scopes) (id : Nat) (vars : Fields) : Scopes :=
  { scopes with entries := Table.setSorted idBelow id vars scopes.entries }

/-- The scopes with a new one that has the given variables, and its number. -/
def allocate (scopes : Scopes) (vars : Fields) : Scopes × Nat :=
  ({ scopes.put scopes.nextId vars with nextId := scopes.nextId + 1 }, scopes.nextId)

/-- The scopes whose numbers are among the given ones. -/
def retain (scopes : Scopes) (live : List Nat) : Scopes :=
  { scopes with entries := scopes.entries.filter fun entry => live.contains entry.1 }

/-- Equality of scopes. -/
def same (a b : Scopes) : Bool :=
  a.nextId == b.nextId && a.entries.length == b.entries.length
    && (a.entries.zip b.entries).all fun (x, y) =>
      x.1 == y.1 && (Json.obj x.2).same (.obj y.2)

end Scopes

end Parley
