import Parley.Expr.Function
import Parley.Expr.Parser
import Parley.Expr.Refusal

/-!
# Evaluation of expressions

An expression is evaluated against the variables of a frame and the names that
the engine provides.  Evaluation ends with a value or with a refusal; it never
fails and changes nothing.  `Expr.denied?` finds a refusal without evaluating,
also in parts that evaluation would skip.
-/

set_option autoImplicit false

namespace Parley

/-- What the engine tells expressions about the conversation. -/
structure Surroundings where
  userId : String
  sessionId : String
  flowName : String
  language : String
  /-- The present time, as text. -/
  now : String
  deriving DecidableEq, Repr

/-- Everything that an expression can read. -/
structure Scope where
  /-- The variables of the frame. -/
  vars : Fields
  /-- The names that the engine provides, visible where no variable has the name. -/
  surroundings : Surroundings

namespace Scope

/-- The names that the engine provides. -/
def provided? (s : Surroundings) (name : String) : Option String :=
  if name = "userId" then some s.userId
  else if name = "sessionId" then some s.sessionId
  else if name = "flowName" then some s.flowName
  else if name = "language" then some s.language
  else if name = "currentTime" then some s.now
  else none

/-- The value of a name: that of the variable, else what the engine provides. -/
def lookup? (scope : Scope) (name : String) : Option Json :=
  match Table.get? name scope.vars with
  | some value => some value
  | none => (provided? scope.surroundings name).map .str

end Scope

namespace Expr

/-- The first step of a path with a denied name. -/
def deniedSegment? : List Segment → Option Refusal
  | [] => none
  | .key name :: segments =>
    if Denied.isProperty name then some (.access name) else deniedSegment? segments
  | .index _ :: segments => deniedSegment? segments

/-- Why a path must not be read, if so. -/
def deniedPath? (root : String) (segments : List Segment) : Option Refusal :=
  if Denied.isRoot root then some (.access root) else deniedSegment? segments

mutual

/-- The first denied path or call anywhere in the expression, from left to right. -/
def denied? : Expr → Option Refusal
  | .lit _ => none
  | .path root segments => deniedPath? root segments
  | .call name args => if Function.isAllowed name then deniedArgs? args else some (.call name)
  | .not e => denied? e
  | .neg e => denied? e
  | .binary _ a b => (denied? a).or (denied? b)
  | .and a b => (denied? a).or (denied? b)
  | .or a b => (denied? a).or (denied? b)
  | .cond t a b => ((denied? t).or (denied? a)).or (denied? b)

/-- The first denied path or call in the arguments. -/
def deniedArgs? : List Expr → Option Refusal
  | [] => none
  | e :: es => (denied? e).or (deniedArgs? es)

end

/-- The value one step into `value`; a step that does not fit leads nowhere. -/
def stepInto? (segment : Segment) (value : Json) : Option Json :=
  match segment, value with
  | .key name, .obj fields => some ((Table.get? name fields).getD .null)
  | .key name, .arr items => if name = "length" then some (.nat items.length) else none
  | .key name, .str s => if name = "length" then some (.nat s.length) else none
  | .index position, .arr items => some (items[position]?.getD .null)
  | .index position, .obj fields =>
    some ((Table.get? (Decimal.text position) fields).getD .null)
  | _, _ => none

/-- The value at the end of a path into `value`, or `null` if a step leads nowhere. -/
def follow : List Segment → Json → Json
  | [], value => value
  | segment :: segments, value =>
    match stepInto? segment value with
    | some next => follow segments next
    | none => .null

/-- The value of a path. -/
def evalPath (scope : Scope) (root : String) (segments : List Segment) : Except Refusal Json :=
  match deniedPath? root segments with
  | some refusal => .error refusal
  | none => .ok (((scope.lookup? root).map (follow segments)).getD .null)

/-- The order of two values: of numbers if both are numeric, of characters if both are strings.
`null` and all other values have none. -/
def order? (a b : Json) : Option Ordering :=
  if a.isNull || b.isNull then none
  else
    match a.toNumber?, b.toNumber? with
    | some x, some y => if x < y then some .lt else if x == y then some .eq else some .gt
    | _, _ =>
      match a, b with
      | .str s, .str t => some (if s < t then .lt else if s = t then .eq else .gt)
      | _, _ => none

/-- A calculation on the numbers that two values can be read as. -/
def calculate (f : Float → Float → Json) (a b : Json) : Json :=
  match a.toNumber?, b.toNumber? with
  | some x, some y => f x y
  | _, _ => .null

/-- A comparison of two values; values without order do not compare. -/
def comparing (f : Ordering → Bool) (a b : Json) : Json :=
  .bool (((order? a b).map f).getD false)

/-- The value of an operator. -/
def applyBinary (op : BinaryOp) (a b : Json) : Json :=
  match op with
  | .add =>
    match a.toNumber?, b.toNumber? with
    | some x, some y => Json.ofFloat (x + y)
    | _, _ => .str (a.display ++ b.display)
  | .sub => calculate (fun x y => Json.ofFloat (x - y)) a b
  | .mul => calculate (fun x y => Json.ofFloat (x * y)) a b
  | .div => calculate (fun x y => if y == 0.0 then .null else Json.ofFloat (x / y)) a b
  | .rem => calculate (fun x y => ((FloatValue.remainderOf? x y).map Json.ofFloat).getD .null) a b
  | .eq => .bool (Json.looseEq a b)
  | .ne => .bool (!Json.looseEq a b)
  | .strictEq => .bool (Json.strictEq a b)
  | .strictNe => .bool (!Json.strictEq a b)
  | .lt => comparing (· == .lt) a b
  | .gt => comparing (· == .gt) a b
  | .le => comparing (· != .gt) a b
  | .ge => comparing (· != .lt) a b

mutual

/-- The value of an expression, or why it is refused.  Only the parts that are needed are
evaluated. -/
def eval (scope : Scope) : Expr → Except Refusal Json
  | .lit value => .ok value
  | .path root segments => evalPath scope root segments
  | .call name args =>
    match Function.ofName? name with
    | none => .error (.call name)
    | some f =>
      match evalArgs scope args with
      | .error refusal => .error refusal
      | .ok values => .ok (f.apply scope.surroundings.now values)
  | .not e =>
    match eval scope e with
    | .error refusal => .error refusal
    | .ok value => .ok (.bool (!value.isTruthy))
  | .neg e =>
    match eval scope e with
    | .error refusal => .error refusal
    | .ok value => .ok ((value.toNumber?.map fun x => Json.ofFloat (-x)).getD .null)
  | .binary op a b =>
    match eval scope a with
    | .error refusal => .error refusal
    | .ok x =>
      match eval scope b with
      | .error refusal => .error refusal
      | .ok y => .ok (applyBinary op x y)
  | .and a b =>
    match eval scope a with
    | .error refusal => .error refusal
    | .ok x =>
      if x.isTruthy then
        match eval scope b with
        | .error refusal => .error refusal
        | .ok y => .ok (.bool y.isTruthy)
      else .ok (.bool false)
  | .or a b =>
    match eval scope a with
    | .error refusal => .error refusal
    | .ok x =>
      if x.isTruthy then .ok (.bool true)
      else
        match eval scope b with
        | .error refusal => .error refusal
        | .ok y => .ok (.bool y.isTruthy)
  | .cond t a b =>
    match eval scope t with
    | .error refusal => .error refusal
    | .ok x => if x.isTruthy then eval scope a else eval scope b

/-- The values of arguments, in order, or the first refusal. -/
def evalArgs (scope : Scope) : List Expr → Except Refusal (List Json)
  | [] => .ok []
  | e :: es =>
    match eval scope e with
    | .error refusal => .error refusal
    | .ok value => (evalArgs scope es).map (value :: ·)

end

/-- The value of an expression in which nothing is denied, else the first refusal.  Parts that
evaluation would skip count as well. -/
def evalChecked (scope : Scope) (e : Expr) : Except Refusal Json :=
  match denied? e with
  | some refusal => .error refusal
  | none => eval scope e

/-- The value of a source text: that of the expression it writes; of a text that is no expression
the text itself, unless it looks like a program; `null` for blanks. -/
def evaluate (scope : Scope) (source : List Char) : Except Refusal Json :=
  let source := Text.trim source
  if source.isEmpty then .ok .null
  else
    match parse? source with
    | some e => evalChecked scope e
    | none =>
      match Denied.screen? source with
      | some refusal => .error refusal
      | none => .ok (.str (String.ofList source))

end Expr

end Parley
