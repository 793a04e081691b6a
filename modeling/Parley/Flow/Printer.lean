import Parley.Flow.Step

/-!
# Steps as JSON

The written form of steps.  Its keys stand in a fixed order, so the compact text
of a step is determined by the step.
-/

set_option autoImplicit false

namespace Parley

/-- An entry that is written only if it has a value. -/
def entryIfSome (name : String) : Option Json → Fields
  | some value => [(name, value)]
  | none => []

namespace ToolCall

/-- The entries of a call that stand before those of its handler. -/
def entries (call : ToolCall) : Fields :=
  [("tool", .str call.tool)] ++ entryIfSome "args" call.args
    ++ entryIfSome "variable" (call.target.map Json.str)
    ++ entryIfSome "retry" (call.retry.map RetryPolicy.toJson)

end ToolCall

namespace Step

/-- The entries that every step starts with. -/
def header (kind : StepKind) (id : String) : Fields :=
  [("type", .str kind.name), ("id", .str id)]

mutual

/-- A step as a value. -/
def toJson : Step → Json
  | .say id message =>
    .obj (header .say id ++ [("value", .str message.base)] ++ message.variants)
  | .ask id message target =>
    .obj (header .ask id ++ [("value", .str message.base)]
      ++ entryIfSome "variable" (target.map Json.str) ++ message.variants)
  | .set id target value =>
    .obj (header .set id ++ [("variable", .str target), ("value", value)])
  | .switch id subject branches =>
    .obj (header .switch id ++ [("variable", .str subject),
      ("branches", .obj (branchEntries branches))])
  | .choose id branches => .obj (header .choose id ++ [("branches", .obj (choiceEntries branches))])
  | .callTool id call onFail =>
    .obj (header .callTool id ++ call.entries ++ handlerEntry onFail
      ++ [("retryCount", .nat call.retryCount)])
  | .callFlow id flow callType =>
    .obj (header .callFlow id ++ [("flow", .str flow), ("callType", .str callType.name)])

/-- The branches on a value, by their keys. -/
def branchEntries : List (String × Step) → List (String × Json)
  | [] => []
  | (key, step) :: rest => (key, toJson step) :: branchEntries rest

/-- The branches on conditions, by the keys of their guards. -/
def choiceEntries : List (Guard × Step) → List (String × Json)
  | [] => []
  | (guard, step) :: rest => (guard.key, toJson step) :: choiceEntries rest

/-- The entry of a handler, if there is one. -/
def handlerEntry : Option Step → List (String × Json)
  | some step => [("onFail", toJson step)]
  | none => []

end

end Step

end Parley
