import Parley.Json.Basic

/-!
# Expressions

The syntax trees of the expression language of templates and conditions:
literals, variable paths, calls, operators and the conditional.  There is no
assignment, no loop and no construction of objects.
-/

set_option autoImplicit false

namespace Parley

/-- One step of a variable path. -/
inductive Segment where
  /-- The entry of an object with this name, or the length of a list or string. -/
  | key (name : String)
  /-- The item of a list at this position, counted from zero. -/
  | index (position : Nat)
  deriving DecidableEq, Repr

namespace Segment

/-- The largest position that a path may name. -/
def indexLimit : Nat :=
  Nat.pow 2 64 - 1

/-- A path may take this step. -/
def isAddressable : Segment → Bool
  | .key _ => true
  | .index position => position ≤ indexLimit

end Segment

/-- The operators between two operands that are both evaluated. -/
inductive BinaryOp where
  | add
  | sub
  | mul
  | div
  | rem
  | eq
  | strictEq
  | ne
  | strictNe
  | lt
  | gt
  | le
  | ge
  deriving DecidableEq, Repr

namespace BinaryOp

/-- Every operator. -/
def all : List BinaryOp :=
  [add, sub, mul, div, rem, eq, strictEq, ne, strictNe, lt, gt, le, ge]

/-- The sign of an operator. -/
def symbol : BinaryOp → String
  | add => "+"
  | sub => "-"
  | mul => "*"
  | div => "/"
  | rem => "%"
  | eq => "=="
  | strictEq => "==="
  | ne => "!="
  | strictNe => "!=="
  | lt => "<"
  | gt => ">"
  | le => "<="
  | ge => ">="

/-- The operator with this sign. -/
def ofSymbol? (sign : String) : Option BinaryOp :=
  all.find? fun op => op.symbol = sign

/-- The operator compares its operands. -/
def isComparison : BinaryOp → Bool
  | eq | strictEq | ne | strictNe | lt | gt | le | ge => true
  | _ => false

/-- The operator adds or subtracts. -/
def isAdditive : BinaryOp → Bool
  | add | sub => true
  | _ => false

/-- The operator multiplies or divides. -/
def isMultiplicative : BinaryOp → Bool
  | mul | div | rem => true
  | _ => false

end BinaryOp

/-- An expression. -/
inductive Expr where
  /-- A literal value. -/
  | lit (value : Json)
  /-- A variable, and the steps into its value. -/
  | path (root : String) (segments : List Segment)
  /-- A call by the name as it was written. -/
  | call (name : String) (args : List Expr)
  /-- Logical negation. -/
  | not (operand : Expr)
  /-- Arithmetic negation. -/
  | neg (operand : Expr)
  /-- An operator on two operands. -/
  | binary (op : BinaryOp) (left right : Expr)
  /-- Conjunction; the right operand counts only if the left one holds. -/
  | and (left right : Expr)
  /-- Disjunction; the right operand counts only if the left one does not hold. -/
  | or (left right : Expr)
  /-- The choice between two expressions. -/
  | cond (test yes no : Expr)
  deriving Inhabited

end Parley
