import Parley.Text.Basic
import Parley.Tool.Retry

/-!
# Steps

A flow is a list of steps of seven kinds.  Steps that branch and steps that
handle a failure hold further steps, one for each case.
-/

set_option autoImplicit false

namespace Parley

/-- How a step hands over to another flow. -/
inductive CallType where
  /-- The other flow runs on top of the caller and shares its variables. -/
  | call
  /-- The other flow takes the place of the caller's remaining steps. -/
  | replace
  /-- Everything is discarded and the other flow starts anew. -/
  | reboot
  deriving DecidableEq, Repr

namespace CallType

/-- The name of a call type. -/
def name : CallType → String
  | call => "call"
  | replace => "replace"
  | reboot => "reboot"

/-- The call types and their names. -/
def names : Table String CallType :=
  [("call", call), ("replace", replace), ("reboot", reboot)]

end CallType

/-- The kinds of steps. -/
inductive StepKind where
  /-- Shows a message. -/
  | say
  /-- Shows a message and waits for an answer. -/
  | ask
  /-- Sets a variable. -/
  | set
  /-- Branches on the value of a variable. -/
  | switch
  /-- Branches on conditions. -/
  | choose
  /-- Calls a tool. -/
  | callTool
  /-- Hands over to another flow. -/
  | callFlow
  deriving DecidableEq, Repr

namespace StepKind

/-- The name of a kind. -/
def name : StepKind → String
  | say => "SAY"
  | ask => "SAY-GET"
  | set => "SET"
  | switch => "SWITCH"
  | choose => "CASE"
  | callTool => "CALL-TOOL"
  | callFlow => "FLOW"

/-- Every kind. -/
def all : List StepKind :=
  [say, ask, set, switch, choose, callTool, callFlow]

/-- The kind with this name. -/
def ofName? (text : String) : Option StepKind :=
  all.find? fun kind => kind.name = text

end StepKind

/-- A message text with variants for languages. -/
structure Wording where
  /-- The text for languages without variant. -/
  base : String
  /-- The further entries of the step, in ascending order of their keys. -/
  variants : Fields

namespace Wording

/-- A text without variants. -/
def plain (base : String) : Wording :=
  ⟨base, []⟩

/-- The text stored under a key of the step. -/
def variant? (wording : Wording) (key : String) : Option String :=
  (Table.get? key wording.variants).bind Json.asStr?

/-- The text for a language: its variant of the value or else of the prompt, or the base text. -/
def forLanguage (wording : Wording) (language : String) : String :=
  ((wording.variant? ("value_" ++ language)).or
    (wording.variant? ("prompt_" ++ language))).getD wording.base

end Wording

/-- When a branch of a choice is taken. -/
inductive Guard where
  /-- The branch is taken if the condition holds. -/
  | condition (source : String)
  /-- The branch is taken if no condition holds. -/
  | otherwise
  deriving DecidableEq, Repr

namespace Guard

/-- The key of branches that are taken if no condition holds. -/
def otherwiseKey : String :=
  "default"

/-- What the key of a condition starts with. -/
def conditionMark : String :=
  "condition:"

/-- The guard that a branch key stands for. -/
def ofKey? (key : String) : Option Guard :=
  if key = otherwiseKey then some otherwise
  else (Text.after? conditionMark.toList key.toList).map fun source =>
    condition (String.ofList (Text.trim source))

/-- The key that a guard is written as. -/
def key : Guard → String
  | condition source => conditionMark ++ " " ++ source
  | otherwise => otherwiseKey

end Guard

/-- The call of a tool by a step. -/
structure ToolCall where
  /-- The name or id of the tool. -/
  tool : String
  /-- The arguments, if the step gives them. -/
  args : Option Json
  /-- The variable that receives the result. -/
  target : Option String
  /-- The settings for trying again. -/
  retry : Option RetryPolicy
  /-- The retries already made. -/
  retryCount : Nat

/-- A step of a flow. -/
inductive Step where
  /-- Shows a message. -/
  | say (id : String) (message : Wording)
  /-- Shows a message and waits for an answer, which is stored in the variable. -/
  | ask (id : String) (message : Wording) (target : Option String)
  /-- Sets a variable. -/
  | set (id target : String) (value : Json)
  /-- Continues with the branch whose key is the value of the variable. -/
  | switch (id subject : String) (branches : List (String × Step))
  /-- Continues with the first branch whose condition holds. -/
  | choose (id : String) (branches : List (Guard × Step))
  /-- Calls a tool; a failure may have its own step. -/
  | callTool (id : String) (call : ToolCall) (onFail : Option Step)
  /-- Hands over to another flow. -/
  | callFlow (id flow : String) (callType : CallType)

namespace Step

/-- The id of a step. -/
def id : Step → String
  | say id _ => id
  | ask id _ _ => id
  | set id _ _ => id
  | switch id _ _ => id
  | choose id _ => id
  | callTool id _ _ => id
  | callFlow id _ _ => id

/-- The kind of a step. -/
def kind : Step → StepKind
  | say _ _ => .say
  | ask _ _ _ => .ask
  | set _ _ _ => .set
  | switch _ _ _ => .switch
  | choose _ _ => .choose
  | callTool _ _ _ => .callTool
  | callFlow _ _ _ => .callFlow

/-- The message of a step that shows one. -/
def message? : Step → Option Wording
  | say _ message => some message
  | ask _ message _ => some message
  | _ => none

end Step

/-- Equality of optional values, given equality of values. -/
def sameOption {α : Type} (same : α → α → Bool) : Option α → Option α → Bool
  | some a, some b => same a b
  | none, none => true
  | _, _ => false

namespace Wording

/-- Equality of texts with their variants. -/
def same (a b : Wording) : Bool :=
  a.base == b.base && (Json.obj a.variants).same (.obj b.variants)

end Wording

namespace ToolCall

/-- Equality of calls. -/
def same (a b : ToolCall) : Bool :=
  a.tool == b.tool && sameOption Json.same a.args b.args && a.target == b.target
    && a.retry == b.retry && a.retryCount == b.retryCount

end ToolCall

namespace Step

mutual

/-- Equality of steps: branches in order, values of JSON as values. -/
def same : Step → Step → Bool
  | .say id message, .say id' message' => id == id' && message.same message'
  | .ask id message target, .ask id' message' target' =>
    id == id' && message.same message' && target == target'
  | .set id target value, .set id' target' value' =>
    id == id' && target == target' && value.same value'
  | .switch id subject branches, .switch id' subject' branches' =>
    id == id' && subject == subject' && sameBranches branches branches'
  | .choose id branches, .choose id' branches' => id == id' && sameChoices branches branches'
  | .callTool id call onFail, .callTool id' call' onFail' =>
    id == id' && call.same call' && sameHandler onFail onFail'
  | .callFlow id flow callType, .callFlow id' flow' callType' =>
    id == id' && flow == flow' && callType == callType'
  | _, _ => false

/-- Equality of the branches on a value. -/
def sameBranches : List (String × Step) → List (String × Step) → Bool
  | [], [] => true
  | (key, step) :: rest, (key', step') :: rest' =>
    key == key' && same step step' && sameBranches rest rest'
  | _, _ => false

/-- Equality of the branches on conditions. -/
def sameChoices : List (Guard × Step) → List (Guard × Step) → Bool
  | [], [] => true
  | (guard, step) :: rest, (guard', step') :: rest' =>
    guard == guard' && same step step' && sameChoices rest rest'
  | _, _ => false

/-- Equality of the handlers of a failure. -/
def sameHandler : Option Step → Option Step → Bool
  | some step, some step' => same step step'
  | none, none => true
  | _, _ => false

end

end Step

end Parley
