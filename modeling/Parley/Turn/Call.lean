import Parley.Turn.Reply
import Parley.Turn.Scene

/-!
# Steps that call tools

The arguments are those of the step, or the model is asked for them.  A call
that fails is tried again as often as its settings allow; after that its handler
runs, and without a handler the flow is given up.
-/

set_option autoImplicit false

namespace Parley

namespace Tool

/-- The tool declares parameters. -/
def hasParameters (tool : Tool) : Bool :=
  match (tool.parameters.get? "properties").bind Json.asObj? with
  | some properties => !properties.isEmpty
  | none => false

/-- The instruction by which the model is asked for the arguments of the tool. -/
def argumentInstruction (tool : Tool) : String :=
  "Generate the arguments for the tool '" ++ tool.name ++ "' (" ++ tool.description
    ++ "). Reply with a single JSON object matching this parameter schema and nothing else:\n"
    ++ tool.parameters.text

end Tool

namespace Scene

/-- How many entries of the conversation the model is told. -/
def recentCount : Nat :=
  6

/-- The last entries of the conversation, a line for each. -/
def recentConversation (scene : Scene) : String :=
  let context := scene.frame.context
  joined "\n" ((context.drop (context.length - recentCount)).map fun entry =>
    entry.role.name ++ ": " ++ entry.content)

/-- What the model is told when it is asked for arguments. -/
def argumentMessage (scene : Scene) : String :=
  "Known values: " ++ (Json.obj scene.vars).text ++ "\nRecent conversation:\n"
    ++ scene.recentConversation

end Scene

namespace Stage

/-- The arguments in the reply of the model. -/
def argumentsIn (tool : Tool) : Except String String → Except ToolFailure Json
  | .error reason => .error (.plain .toolCallGeneration reason)
  | .ok reply =>
    match Reply.value? reply with
    | some (.obj arguments) => .ok (.obj arguments)
    | _ => .error (.plain .toolCallGeneration
        ("could not read arguments for '" ++ tool.name ++ "' from the model reply"))

/-- Asks the model for the arguments of a tool; a tool without parameters gets none. -/
def inferArguments (stage : Stage) (tool : Tool) (scene : Scene) :
    Journal × Except ToolFailure Json :=
  if tool.hasParameters then
    let (journal, reply) := stage.engine.ask scene.journal
      ⟨tool.argumentInstruction, scene.argumentMessage⟩
    (journal, argumentsIn tool reply)
  else (scene.journal, .ok (.obj []))

/-- The arguments of a call. -/
def argumentsOf (stage : Stage) (call : ToolCall) (tool : Tool) (scene : Scene) :
    Journal × Except ToolFailure Json :=
  match call.args with
  | some args => (scene.journal, .ok (stage.resolve scene args))
  | none => stage.inferArguments tool scene

/-- One attempt of a call. -/
def attempt (stage : Stage) (call : ToolCall) (tool : Tool) (scene : Scene) :
    Journal × Except ToolFailure Json :=
  match stage.argumentsOf call tool scene with
  | (journal, .error failure) => (journal, .error failure)
  | (journal, .ok args) => stage.engine.invoke journal tool args stage.userId

/-- The failure of a call of a tool that does not exist. -/
def undefinedTool (tool : String) : ToolFailure :=
  .plain .unknown ("tool '" ++ tool ++ "' is not defined")

/-- The record of a failed attempt. -/
def failedRecord (id : String) (call : ToolCall) (failure : ToolFailure) (status : StepStatus) :
    StepRecord :=
  ⟨id, StepKind.callTool.name, some call.tool, none, some failure.describe, status,
    call.retryCount⟩

/-- Goes on after an attempt that succeeded. -/
def callSucceeded (id : String) (call : ToolCall) (tool : Tool) (result : Json) (scene : Scene) :
    Outcome :=
  let scene := (scene.storeIn call.target result).popStep
  let report := tool.name ++ ": " ++ (Redaction.value result).text
  (scene.withFrame (scene.frame.record (.tool report))).logged
    ⟨id, StepKind.callTool.name, some tool.name, some result, none, .success, call.retryCount⟩
    fun scene => scene.outcome .proceed

/-- Goes on with a further attempt after some milliseconds. -/
def callAgain (id : String) (call : ToolCall) (onFail : Option Step) (failure : ToolFailure)
    (delay : Nat) (scene : Scene) : Outcome :=
  scene.logged (failedRecord id call failure .retrying) fun scene =>
    let scene := { scene with journal := scene.journal.later delay }
    let again := Step.callTool id { call with retryCount := call.retryCount + 1 } onFail
    (scene.popStep.pushStep again).outcome .proceed

/-- Goes on after the last attempt: with the handler, or without the flow. -/
def callGivenUp (stage : Stage) (id : String) (call : ToolCall) (onFail : Option Step)
    (failure : ToolFailure) (scene : Scene) : Outcome :=
  scene.logged (failedRecord id call failure .failed) fun scene =>
    let scene := (scene.storeIn call.target (.str ("Error: " ++ failure.message))).popStep
    let report := Redaction.text (call.tool ++ " failed: " ++ failure.describe)
    let scene := scene.withFrame (scene.frame.record (.tool report))
    match onFail with
    | some handler => (scene.pushStep handler).outcome .proceed
    | none =>
      (scene.tell (stage.engine.notice .toolFailed
        [("tool", call.tool), ("flow", scene.frame.flowName)])).outcome .leave

/-- Goes on after an attempt that failed. -/
def callFailed (stage : Stage) (id : String) (call : ToolCall) (onFail : Option Step)
    (failure : ToolFailure) (scene : Scene) : Outcome :=
  let action := FailureAction.decide failure.category call.tool scene.frame.flowName
  match RetryPolicy.decide call.retry stage.engine.settings.retryDefaults call.retryCount
    action with
  | .retry delay => callAgain id call onFail failure delay scene
  | .giveUp => stage.callGivenUp id call onFail failure scene

/-- Calls a tool. -/
def callTool (stage : Stage) (id : String) (call : ToolCall) (onFail : Option Step)
    (scene : Scene) : Outcome :=
  match stage.engine.registry.get? call.tool with
  | none => stage.callFailed id call onFail (undefinedTool call.tool) scene
  | some tool =>
    match stage.attempt call tool scene with
    | (journal, .ok result) => callSucceeded id call tool result { scene with journal := journal }
    | (journal, .error failure) =>
      stage.callFailed id call onFail failure { scene with journal := journal }

end Stage

end Parley
