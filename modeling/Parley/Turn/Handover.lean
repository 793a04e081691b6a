import Parley.Turn.Scene

/-!
# Steps that hand over to other flows

A called flow gets a frame of its own on top of its caller and shares the
caller's variables; a flow that replaces another one takes over its frame; a
reboot discards everything else.
-/

set_option autoImplicit false

namespace Parley

namespace Stage

/-- Hands over to a flow that does not exist. -/
def unknownFlow (stage : Stage) (id flow : String) (callType : CallType) (scene : Scene) :
    Outcome :=
  let notice := stage.engine.notice .flowNotFound [("flow", flow)]
  match callType with
  | .reboot => (scene.tell notice).outcome (.restart none)
  | _ => scene.finished .callFlow id fun scene => (scene.tell notice).outcome .proceed

/-- Calls a flow on top of the frame, if the level has room for it. -/
def call (stage : Stage) (id : String) (flow : Definition) (scene : Scene) : Outcome :=
  let limit := stage.engine.settings.maxStackDepth
  if limit ≤ stage.depth then scene.failure (.recursionLimit limit)
  else
    scene.finished .callFlow id fun scene =>
      let transaction :=
        Transaction.start flow.name ("flow:" ++ scene.frame.flowName) stage.userId
      (scene.declare flow).outcome (.enter (.start flow scene.frame.scope transaction))

/-- Why the transaction of a flow that was replaced is failed. -/
def replacedReason : String :=
  "replaced"

/-- Hands the frame to a flow. -/
def replace (stage : Stage) (id : String) (flow : Definition) (scene : Scene) : Outcome :=
  scene.finished .callFlow id fun scene =>
    let former := scene.frame
    let transaction :=
      Transaction.start flow.name ("replace:" ++ former.flowName) stage.userId
    let scene := (scene.declare flow).withFrame (former.handTo flow transaction)
    match former.transaction.ifOpen fun transaction => transaction.fail replacedReason with
    | .error e => scene.failure (.transaction e)
    | .ok closed =>
      (scene.withFrame { scene.frame with replaced := scene.frame.replaced ++ [closed] }).outcome
        .proceed

/-- Hands over to a flow. -/
def callFlow (stage : Stage) (id flow : String) (callType : CallType) (scene : Scene) :
    Outcome :=
  match stage.engine.library.get? flow, callType with
  | none, callType => stage.unknownFlow id flow callType scene
  | some flow, .call => stage.call id flow scene
  | some flow, .replace => stage.replace id flow scene
  | some flow, .reboot => scene.outcome (.restart (some flow))

end Stage

end Parley
