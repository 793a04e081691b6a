import Parley.Expr.Eval
import Parley.Template.Syntax

/-!
# Rendering templates

A placeholder is evaluated after the placeholders inside it have been rendered.
A refused placeholder is rendered as a note that quotes its source.  Nesting
deeper than a limit is refused.  Conditions bind placeholders to generated names
instead of rendering them, so that a value is always one operand.
-/

set_option autoImplicit false

namespace Parley

namespace Template

/-- A rendered text. -/
structure Rendered where
  /-- The text. -/
  chars : List Char
  /-- Some placeholder was refused. -/
  refused : Bool
  deriving DecidableEq, Repr

/-- Two rendered texts, one after the other. -/
def Rendered.append (a b : Rendered) : Rendered :=
  ⟨a.chars ++ b.chars, a.refused || b.refused⟩

/-- The note that stands for a refused placeholder. -/
def blockedNote (source : List Char) : String :=
  "[blocked: " ++ String.ofList (Text.trim source) ++ "]"

/-- The text that stands for a placeholder refused for the given reason. -/
def noteFor (source : List Char) : Refusal → String
  | .tooDeep => Refusal.tooDeepMarker
  | _ => blockedNote source

/-- A placeholder as text: the text of its value, or the note of its refusal. -/
def present (source : List Char) : Except Refusal Json → Rendered
  | .ok value => ⟨value.display.toList, false⟩
  | .error refusal => ⟨(noteFor source refusal).toList, true⟩

/-- The value of a placeholder at nesting level `depth`, given the text that its source renders to.
A source without placeholders is evaluated as it stands. -/
def settle (limit : Nat) (scope : Scope) (depth : Nat) (source : List Char) (nested : Rendered) :
    Except Refusal Json :=
  if hasOpening source then
    if limit < depth + 1 then .error .tooDeep
    else if nested.refused then
      if Text.contains Refusal.tooDeepMarker.toList nested.chars then .error .tooDeep
      else .error (.inside (String.ofList nested.chars))
    else Expr.evaluate scope nested.chars
  else Expr.evaluate scope source

mutual

/-- The text of a piece at nesting level `depth`. -/
def renderPiece (limit : Nat) (scope : Scope) : Nat → Piece → Rendered
  | _, .text chars => ⟨chars, false⟩
  | depth, .hole source pieces =>
    present source (settle limit scope depth source (renderPieces limit scope (depth + 1) pieces))

/-- The text of several pieces at nesting level `depth`. -/
def renderPieces (limit : Nat) (scope : Scope) : Nat → List Piece → Rendered
  | _, [] => ⟨[], false⟩
  | depth, piece :: pieces =>
    (renderPiece limit scope depth piece).append (renderPieces limit scope depth pieces)

end

/-- The value of a placeholder at nesting level `depth`. -/
def expand (limit : Nat) (scope : Scope) (depth : Nat) (source : List Char) (pieces : List Piece) :
    Except Refusal Json :=
  settle limit scope depth source (renderPieces limit scope (depth + 1) pieces)

/-- The name that stands for the placeholder number `n` of a condition. -/
def bindingName (n : Nat) : String :=
  String.ofList ('$' :: Decimal.digitsOf n)

/-- The source of a condition with every placeholder replaced by a generated name, and the values of
these names; none if a placeholder is refused.  The count `n` numbers the next name. -/
def bind? (limit : Nat) (scope : Scope) : Nat → List Piece → Option (List Char × Fields)
  | _, [] => some ([], [])
  | n, .text chars :: pieces =>
    (bind? limit scope n pieces).map fun (source, bindings) => (chars ++ source, bindings)
  | n, .hole inner nested :: pieces =>
    match expand limit scope 1 inner nested with
    | .error _ => none
    | .ok value =>
      (bind? limit scope (n + 1) pieces).map fun (source, bindings) =>
        (' ' :: (bindingName n).toList ++ ' ' :: source, (bindingName n, value) :: bindings)

end Template

/-- An evaluator of templates, with the nesting level of placeholders that it still evaluates. -/
structure Evaluator where
  /-- The deepest nesting level, at least one. -/
  limit : Nat
  deriving DecidableEq, Repr

namespace Evaluator

/-- The evaluator for the given nesting level; a level of zero counts as one. -/
def ofLimit (limit : Nat) : Evaluator :=
  ⟨max limit 1⟩

/-- The evaluator used where no level is given. -/
def standard : Evaluator :=
  ofLimit 10

/-- The value of a placeholder that makes up a whole text. -/
def expandWhole (evaluator : Evaluator) (scope : Scope) (inner : List Char) : Except Refusal Json :=
  Template.expand evaluator.limit scope 1 inner (Template.ofText inner)

/-- The scope with the values of generated names set over the variables. -/
def withBindings (scope : Scope) (bindings : Fields) : Scope :=
  { scope with vars := Table.overlay bindings scope.vars }

/-- What a condition evaluates to.  A condition that is one placeholder has its value; in any other
the placeholders are operands; none if one of them is refused. -/
def conditionValue (evaluator : Evaluator) (scope : Scope) (condition : List Char) :
    Option (Except Refusal Json) :=
  match Template.single? condition with
  | some inner => some (evaluator.expandWhole scope inner)
  | none =>
    if Template.hasOpening condition then
      (Template.bind? evaluator.limit scope 0 (Template.ofText condition)).map
        fun (source, bindings) => Expr.evaluate (withBindings scope bindings) source
    else some (Expr.evaluate scope condition)

/-- A condition holds if it evaluates to a true value; one that is refused does not hold. -/
def holds (evaluator : Evaluator) (scope : Scope) (condition : String) : Bool :=
  match evaluator.conditionValue scope condition.toList with
  | some (.ok value) => value.isTruthy
  | _ => false

/-- The text of a template with the values of its placeholders put in. -/
def interpolate (evaluator : Evaluator) (scope : Scope) (template : String) : String :=
  if Template.hasOpening template.toList then
    String.ofList
      (Template.renderPieces evaluator.limit scope 1 (Template.ofText template.toList)).chars
  else template

/-- The value of a string in a step: that of its only placeholder with its own type, or the text of
the template. -/
def resolveText (evaluator : Evaluator) (scope : Scope) (s : String) : Json :=
  match Template.single? s.toList with
  | some inner =>
    match evaluator.expandWhole scope inner with
    | .ok value => value
    | .error refusal => .str (Template.noteFor inner refusal)
  | none => .str (evaluator.interpolate scope s)

mutual

/-- The value of a step's value: strings are resolved, wherever they stand in it. -/
def resolve (evaluator : Evaluator) (scope : Scope) : Json → Json
  | .str s => evaluator.resolveText scope s
  | .arr items => .arr (resolveItems evaluator scope items)
  | .obj fields => .obj (resolveFields evaluator scope fields)
  | .null => .null
  | .bool b => .bool b
  | .num n => .num n

/-- The values of the items of a list. -/
def resolveItems (evaluator : Evaluator) (scope : Scope) : List Json → List Json
  | [] => []
  | item :: items => resolve evaluator scope item :: resolveItems evaluator scope items

/-- The values of the entries of an object. -/
def resolveFields (evaluator : Evaluator) (scope : Scope) :
    List (String × Json) → List (String × Json)
  | [] => []
  | (key, value) :: fields =>
    (key, resolve evaluator scope value) :: resolveFields evaluator scope fields

end

end Evaluator

end Parley
