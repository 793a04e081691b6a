import Parley.Turn.Command
import Parley.Turn.Intent
import Parley.Turn.Run

/-!
# Activities

One entry of the conversation is one activity.  What the user says while a flow
is in progress may be a command or the wish for another flow, and else is the
answer to the flow's question.
-/

set_option autoImplicit false

namespace Parley

/-- What is done about an input while a flow is in progress. -/
inductive Reaction where
  /-- The flows of the innermost level are given up. -/
  | cancel
  /-- The current flow is explained. -/
  | help
  /-- There is a report on the current flow. -/
  | status
  /-- The current flow goes on without the input, and the flow that waits for confirmation does not
  start. -/
  | stay
  /-- Another flow waits for confirmation. -/
  | confirm (flow : Definition)
  /-- Another flow interrupts the current one. -/
  | interrupt (flow : Definition)
  /-- The current flow goes on with the input. -/
  | goOn

/-- How a turn begins. -/
inductive Opening where
  /-- With its response: no step runs. -/
  | answered (turn : Turn) (response : Option String)
  /-- With the turn that runs. -/
  | running (turn : Turn)

namespace Turn

/-- The frame that an interrupted level stops at: it asks again when it goes on. -/
def paused (frame : Frame) : Frame :=
  { frame with
    transaction := frame.transaction.orUnchanged frame.transaction.complete
    pendingVariable := none
    pendingInterruption := none }

/-- The turn with its levels interrupted by a flow. -/
def switchTo (turn : Turn) (flow : Definition) : Turn :=
  let turn := turn.modifyTop paused
  let interrupted := turn.withLevels turn.session.levels.interrupt
  (interrupted.activate flow "interruption").withoutInput

/-- The turn with the flow noted that needs confirmation. -/
def requestConfirmation (turn : Turn) (target : Definition) : Turn :=
  turn.modifyTop fun frame => { frame with pendingInterruption := some target.name }

/-- The turn without a flow that needs confirmation. -/
def declineInterruption (turn : Turn) : Turn :=
  turn.modifyTop fun frame => { frame with pendingInterruption := none }

/-- The turn without the flows of its innermost level, which go by the name of the one that was
started first. -/
def cancel (engine : Engine) (turn : Turn) : Opening :=
  match turn.session.levels.current.getLast? with
  | none => .answered turn (some (engine.notice .nothingToCancel []))
  | some frame =>
    let cancelled := turn.withLevels turn.session.levels.drain.1
    .running (cancelled.tell (engine.notice .cancelled [("flow", frame.flowName)])).withoutInput

/-- The explanation of the current flow. -/
def help (engine : Engine) (frame : Frame) : String :=
  let description := match engine.library.get? frame.flowName with
    | some flow => flow.description
    | none => ""
  let text := engine.notice .help
    [("flow", frame.flowName), ("description", description),
      ("prompt", frame.lastMessage.getD "")]
  Session.joinMessages [onString Text.trimEnd text, engine.notice .guidance []]

/-- The report on the current flow. -/
def status (engine : Engine) (turn : Turn) (frame : Frame) : String :=
  engine.notice .status
    [("flow", frame.flowName), ("remaining", Decimal.text frame.steps.length),
      ("depth", Decimal.text turn.session.levels.frames.length)]

/-- The flow of this name is one that is left only after confirmation. -/
def needsConfirmation (engine : Engine) (flow : String) : Bool :=
  (engine.library.get? flow).any Definition.isHighRisk

/-- The reaction to an input that is meant for the flow `current` or asks for another one. -/
def reactionTo (engine : Engine) (current : String) : Option Intent → Reaction
  | some ⟨target, .strong⟩ =>
    if target.name = current then .goOn
    else if needsConfirmation engine current then .confirm target
    else .interrupt target
  | _ => .goOn

/-- The turn and the reaction after an input that is no command: it may clearly ask for another
flow. -/
def consider (engine : Engine) (turn : Turn) (input : String) (current : String) :
    Turn × Reaction :=
  let (journal, intent) := Intent.classify engine turn.journal input (some current)
  ({ turn with journal := journal }, reactionTo engine current intent)

/-- The turn and the reaction after an input while `frame` is the innermost frame. -/
def react (engine : Engine) (turn : Turn) (frame : Frame) (input : String) : Turn × Reaction :=
  match Command.ofInput? input, frame.pendingInterruption with
  | some .cancel, _ => (turn, .cancel)
  | some .help, _ => (turn, .help)
  | some .status, _ => (turn, .status)
  | some .switch, some target =>
    let turn := turn.declineInterruption
    match engine.library.get? target with
    | some flow => (turn, .interrupt flow)
    | none => turn.consider engine input frame.flowName
  | some .stay, some _ => (turn.declineInterruption, .stay)
  | _, some _ => turn.declineInterruption.consider engine input frame.flowName
  | _, none => turn.consider engine input frame.flowName

/-- The turn with a reaction carried out while `frame` is the innermost frame. -/
def carryOut (engine : Engine) (turn : Turn) (frame : Frame) : Reaction → Opening
  | .cancel => turn.cancel engine
  | .help => .answered turn (some (help engine frame))
  | .status => .answered turn (some (turn.status engine frame))
  | .stay =>
    let text := engine.notice .continuing [("flow", frame.flowName)]
    .running (turn.tell text).withoutInput
  | .confirm target =>
    .answered (turn.requestConfirmation target)
      (some (engine.notice .switchConfirm [("flow", frame.flowName), ("target", target.name)]))
  | .interrupt target => .running (turn.switchTo target)
  | .goOn => .running turn

/-- The beginning of a turn with an input while `frame` is the innermost frame. -/
def handleInput (engine : Engine) (turn : Turn) (frame : Frame) (input : String) : Opening :=
  let (turn, reaction) := turn.react engine frame input
  turn.carryOut engine frame reaction

/-- The beginning of a turn with an input while no flow is in progress: it may ask for one. -/
def welcome (engine : Engine) (turn : Turn) (input : String) : Opening :=
  let (journal, intent) := Intent.classify engine turn.journal input none
  let turn := { turn with journal := journal }
  match intent with
  | none | some ⟨_, .none⟩ => .answered turn none
  | some ⟨flow, _⟩ => .running (turn.activate flow "user").withoutInput

end Turn

namespace Opening

/-- The turn after its beginning, and the response. -/
def finish (engine : Engine) : Opening → Turn × Option String
  | answered turn response => (turn, response)
  | running turn => turn.run engine

end Opening

namespace Session

/-- The session after an entry that needs no response. -/
def note (session : Session) (entry : Entry) : Session :=
  match session.levels.top? with
  | some _ =>
    { session with levels := session.levels.modifyTop fun frame => frame.record entry }
  | none =>
    { session with lastEntry := some entry, history := session.history ++ [entry] }

/-- The session with what the user said, before anything is done about it. -/
def hear (session : Session) (entry : Entry) : Session :=
  { session.note entry with lastEntry := some entry }

end Session

namespace Engine

/-- The beginning of a turn with what the user said. -/
def opening (engine : Engine) (journal : Journal) (session : Session) (entry : Entry) : Opening :=
  let heard := session.hear entry
  let turn := Turn.start heard journal (some entry.content)
  match heard.levels.top? with
  | some frame => turn.handleInput engine frame entry.content
  | none => turn.welcome engine entry.content

/-- The turn after what the user said, and the response. -/
def respond (engine : Engine) (journal : Journal) (session : Session) (entry : Entry) :
    Turn × Option String :=
  (engine.opening journal session entry).finish engine

/-- The journal after an entry of the conversation, and the response with the session, or the reason
why the session is left as it was. -/
def update (engine : Engine) (journal : Journal) (session : Session) (entry : Entry) :
    Journal × Except EngineError (Option String × Session) :=
  match entry.role with
  | .user =>
    match session.danglingFrame? with
    | some frame => (journal, .error (.danglingFrame frame.flowName frame.scope))
    | none =>
      let (turn, response) := engine.respond journal session entry
      (turn.journal, .ok (response, turn.session))
  | .assistant => (journal, .ok (none, session.note entry))
  | role => (journal, .error (.invalidRole role))

end Engine

end Parley
