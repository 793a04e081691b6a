import Parley.Turn.Branch
import Parley.Turn.Call
import Parley.Turn.Handover
import Parley.Turn.Talk

/-!
# One step of a turn

A turn runs steps of the innermost frame.  A frame without steps is finished; a
level without frames is left, and the one below it goes on.  A step that cannot
be finished ends all flows of its level.
-/

set_option autoImplicit false

namespace Parley

/-- A turn in progress. -/
structure Turn where
  session : Session
  /-- What the user said, until a question takes it. -/
  input : Option String
  /-- The steps taken so far. -/
  taken : Nat
  journal : Journal

/-- How a turn goes on. -/
inductive Progress where
  /-- There is more to run. -/
  | running
  /-- A question waits for its answer. -/
  | blocked
  /-- No frames are left. -/
  | done
  deriving DecidableEq, Repr

namespace Turn

/-- A turn that has just begun. -/
def start (session : Session) (journal : Journal) (input : Option String) : Turn :=
  ⟨session, input, 0, journal⟩

/-- The turn with its session changed. -/
def withSession (turn : Turn) (session : Session) : Turn :=
  { turn with session := session }

/-- The turn with the levels of its session changed. -/
def withLevels (turn : Turn) (levels : Levels) : Turn :=
  turn.withSession { turn.session with levels := levels }

/-- The turn with a further message. -/
def tell (turn : Turn) (text : String) : Turn :=
  turn.withSession (turn.session.tell text)

/-- The turn with its innermost frame changed, if there is one. -/
def modifyTop (turn : Turn) (change : Frame → Frame) : Turn :=
  turn.withLevels (turn.session.levels.modifyTop change)

/-- The turn without input. -/
def withoutInput (turn : Turn) : Turn :=
  { turn with input := none }

/-- The turn with a flow started on the innermost level, in a scope of its own: the variables of the
flow over those that every flow starts with. -/
def activate (turn : Turn) (flow : Definition) (initiator : String) : Turn :=
  let session := turn.session
  let (scopes, scope) := session.scopes.allocate (Table.overlay flow.vars session.globals)
  let transaction := Transaction.start flow.name initiator session.userId
  turn.withSession
    { session with
      scopes := scopes
      levels := session.levels.push (.start flow scope transaction) }

/-- The stage of the innermost frame. -/
def stage (engine : Engine) (turn : Turn) : Stage :=
  ⟨engine, turn.session.userId, turn.session.id, turn.session.levels.depth⟩

/-- The scene of a frame with the given variables. -/
def scene (turn : Turn) (frame : Frame) (vars : Fields) : Scene :=
  ⟨frame, vars, turn.input, [], turn.journal⟩

/-- The turn with what happened in the scene of its innermost frame. -/
def adopt (turn : Turn) (scene : Scene) : Turn :=
  let session := turn.session
  { turn with
    session :=
      { session with
        levels := session.levels.modifyTop fun _ => scene.frame
        scopes := session.scopes.put scene.frame.scope scene.vars
        outbox := session.outbox ++ scene.said }
    input := scene.input
    journal := scene.journal }

/-- The turn after a step that has been adopted, and how it goes on. -/
def advance (turn : Turn) : Next → Turn × Progress
  | .proceed => (turn, .running)
  | .await => (turn, .blocked)
  | .leave => (turn.withLevels turn.session.levels.pop.1, .running)
  | .enter frame => (turn.withLevels (turn.session.levels.push frame), .running)
  | .restart none => (turn.withLevels turn.session.levels.reset.1, .running)
  | .restart (some flow) =>
    ((turn.withLevels turn.session.levels.reset.1).activate flow "reboot", .running)

/-- What becomes of a step. -/
def perform (stage : Stage) (step : Step) (scene : Scene) : Outcome :=
  match step with
  | .say id message => stage.say id message scene
  | .ask id message target => stage.ask id message target scene
  | .set id target value => stage.set id target value scene
  | .switch id subject branches => Stage.switch id subject branches scene
  | .choose id branches => stage.choose id branches scene
  | .callTool id call onFail => stage.callTool id call onFail scene
  | .callFlow id flow callType => stage.callFlow id flow callType scene

/-- The turn with the outcome of a step of its innermost frame, and how it goes on. -/
def settle (turn : Turn) (outcome : Outcome) : Turn × Except EngineError Progress :=
  let turn := turn.adopt outcome.scene
  match outcome.next with
  | .error e => (turn, .error e)
  | .ok next =>
    let (turn, progress) := turn.advance next
    (turn, .ok progress)

/-- The turn after a step of its innermost frame. -/
def runStep (engine : Engine) (turn : Turn) (frame : Frame) (step : Step) :
    Turn × Except EngineError Progress :=
  match turn.session.scopes.get? frame.scope with
  | none => (turn, .error (.missingScope frame.scope))
  | some vars => turn.settle (perform (turn.stage engine) step (turn.scene frame vars))

/-- The frame that an interrupted level goes on with: its transaction is a new one if the former one
was finished by the interruption. -/
def resumed (userId : String) (frame : Frame) : Frame :=
  { frame with
    justResumed := true
    transaction :=
      if frame.transaction.isActive then frame.transaction
      else .start frame.flowName "resume" userId }

/-- The turn after its innermost level, which has no frames, has been left. -/
def resume (engine : Engine) (turn : Turn) : Turn × Except EngineError Progress :=
  match turn.session.levels.leave with
  | .error e => (turn, .error (.level e))
  | .ok (levels, _) =>
    let turn := turn.withLevels levels
    match levels.top? with
    | none => (turn, .ok .running)
    | some frame =>
      let turn := turn.modifyTop (resumed turn.session.userId)
      (turn.tell (engine.notice .resuming [("flow", frame.flowName)]), .ok .running)

/-- The turn after its innermost frame, which has no steps left, has been finished. -/
def finishFrame (turn : Turn) (frame : Frame) : Turn × Except EngineError Progress :=
  let turn := turn.withLevels turn.session.levels.pop.1
  match frame.transaction.ifOpen Transaction.complete with
  | .error e => (turn, .error (.transaction e))
  | .ok _ => (turn, .ok .running)

/-- One step of a turn. -/
def step (engine : Engine) (turn : Turn) : Turn × Except EngineError Progress :=
  match turn.session.levels.top? with
  | none =>
    if turn.session.levels.suspended.isEmpty then (turn, .ok .done) else turn.resume engine
  | some frame =>
    let limit := engine.settings.maxSteps
    let turn := { turn with taken := turn.taken + 1 }
    if limit < turn.taken then (turn, .error (.stepBudgetExceeded limit))
    else
      match frame.steps with
      | [] => turn.finishFrame frame
      | step :: _ => runStep engine turn frame step

/-- The notice of an error. -/
def noticeOf : EngineError → Notice
  | .recursionLimit _ => .recursionLimit
  | _ => .genericError

/-- The turn after an error: without the frames of its innermost level. -/
def abort (engine : Engine) (turn : Turn) (error : EngineError) : Turn :=
  (turn.withLevels turn.session.levels.drain.1).tell (engine.notice (noticeOf error) [])

end Turn

end Parley
