import Parley.Expr.Token

/-!
# Reading expressions

The operators bind in this order, loosest first: the conditional, `||`, `&&`,
one comparison, sums, products, the signs before an operand.  Sums, products,
`&&` and `||` group to the left, the conditional to the right, and a comparison
does not take another comparison as its operand.
-/

set_option autoImplicit false

namespace Parley

namespace Expr

/-- The levels of the operators between two operands. -/
inductive Level where
  | disjunction
  | conjunction
  | comparison
  | sum
  | product
  deriving DecidableEq, Repr

namespace Level

/-- The level that binds next tighter; the operands of a product have signs only. -/
def tighter? : Level → Option Level
  | disjunction => some conjunction
  | conjunction => some comparison
  | comparison => some sum
  | sum => some product
  | product => none

/-- Several operators of the level may follow one another. -/
def repeats : Level → Bool
  | comparison => false
  | _ => true

/-- What a token of this level makes of its two operands. -/
def join? : Level → Token → Option (Expr → Expr → Expr)
  | disjunction, .either => some .or
  | conjunction, .both => some .and
  | comparison, .op op => if op.isComparison then some (.binary op) else none
  | sum, .op op => if op.isAdditive then some (.binary op) else none
  | product, .op op => if op.isMultiplicative then some (.binary op) else none
  | _, _ => none

end Level

mutual

/-- A conditional, or an expression of the loosest level, at the head of the tokens. -/
def readConditional? : Nat → List Token → Option (Expr × List Token)
  | 0, _ => none
  | n + 1, tokens =>
    match readLevel? n .disjunction tokens with
    | none => none
    | some (test, .question :: rest) =>
      match readConditional? n rest with
      | some (yes, .colon :: rest) =>
        (readConditional? n rest).map fun (no, rest) => (.cond test yes no, rest)
      | _ => none
    | some (test, rest) => some (test, rest)

/-- An expression of the given level at the head of the tokens. -/
def readLevel? : Nat → Level → List Token → Option (Expr × List Token)
  | 0, _, _ => none
  | n + 1, level, tokens =>
    match readOperand? n level tokens with
    | none => none
    | some (left, rest) => readTail? n level left rest

/-- An operand of the given level at the head of the tokens. -/
def readOperand? : Nat → Level → List Token → Option (Expr × List Token)
  | 0, _, _ => none
  | n + 1, level, tokens =>
    match level.tighter? with
    | some tighter => readLevel? n tighter tokens
    | none => readSigned? n tokens

/-- The operators and operands of the given level that continue `left`. -/
def readTail? : Nat → Level → Expr → List Token → Option (Expr × List Token)
  | 0, _, _, _ => none
  | _ + 1, _, left, [] => some (left, [])
  | n + 1, level, left, token :: tokens =>
    match level.join? token with
    | none => some (left, token :: tokens)
    | some join =>
      match readOperand? n level tokens with
      | none => none
      | some (right, rest) =>
        if level.repeats then readTail? n level (join left right) rest
        else some (join left right, rest)

/-- An operand with the signs before it. -/
def readSigned? : Nat → List Token → Option (Expr × List Token)
  | 0, _ => none
  | n + 1, tokens =>
    match tokens with
    | .bang :: rest => (readSigned? n rest).map fun (e, rest) => (.not e, rest)
    | .op .sub :: rest => (readSigned? n rest).map fun (e, rest) => (.neg e, rest)
    | rest => readPrimary? n rest

/-- A literal, a call, a path, or an expression in parentheses.  A call keeps the text of its path,
so only a path that is read as a variable must have steps that can be taken. -/
def readPrimary? : Nat → List Token → Option (Expr × List Token)
  | 0, _ => none
  | n + 1, tokens =>
    match tokens with
    | .lit value :: rest => some (.lit value, rest)
    | .path name _ _ :: .opening :: .closing :: rest => some (.call name [], rest)
    | .path name _ _ :: .opening :: rest =>
      (readArguments? n rest).map fun (args, rest) => (.call name args, rest)
    | .path _ root segments :: rest =>
      if segments.all Segment.isAddressable then some (.path root segments, rest) else none
    | .opening :: rest =>
      match readConditional? n rest with
      | some (e, .closing :: rest) => some (e, rest)
      | _ => none
    | _ => none

/-- The arguments of a call from the first one on, and the tokens after the closing parenthesis. -/
def readArguments? : Nat → List Token → Option (List Expr × List Token)
  | 0, _ => none
  | n + 1, tokens =>
    match readConditional? n tokens with
    | some (arg, .comma :: rest) =>
      (readArguments? n rest).map fun (args, rest) => (arg :: args, rest)
    | some (arg, .closing :: rest) => some ([arg], rest)
    | _ => none

end

/-- A number of steps that reading so many tokens never exceeds: between two tokens at most one
descent through all levels takes place. -/
def stepBound (tokens : List Token) : Nat :=
  16 * (tokens.length + 1)

/-- The expression that all the tokens together form. -/
def ofTokens? (tokens : List Token) : Option Expr :=
  match readConditional? (stepBound tokens) tokens with
  | some (e, []) => some e
  | _ => none

/-- The expression that a text writes. -/
def parse? (source : List Char) : Option Expr :=
  (Token.ofText? source).bind ofTokens?

end Expr

end Parley
