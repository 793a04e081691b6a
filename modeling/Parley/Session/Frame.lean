import Parley.Conversation.Entry
import Parley.Flow.Definition
import Parley.Ledger.Transaction

/-!
# Frames

A frame is one flow in progress: the steps it still has to run, the
conversation it has seen, its scope and its transaction.
-/

set_option autoImplicit false

namespace Parley

/-- A flow in progress. -/
structure Frame where
  flowName : String
  flowId : String
  flowVersion : String
  /-- The digest of the definition that the frame was started with. -/
  definitionHash : String
  /-- The remaining steps, the next one first. -/
  steps : List Step
  /-- What was said while the frame was the current one. -/
  context : List Entry
  /-- The number of the scope with the frame's variables. -/
  scope : Nat
  transaction : Transaction
  /-- The variable that waits for an answer. -/
  pendingVariable : Option String
  /-- The last message that the frame showed. -/
  lastMessage : Option String
  /-- The flow that may interrupt this one as soon as the user confirms it. -/
  pendingInterruption : Option String
  /-- The frame has been resumed after an interruption and has not asked anything since. -/
  justResumed : Bool
  /-- The transactions of the flows that this frame ran before, the oldest first. -/
  replaced : List Transaction

namespace Frame

/-- The frame of a flow that has just been started. -/
def start (definition : Definition) (scope : Nat) (transaction : Transaction) : Frame where
  flowName := definition.name
  flowId := definition.id
  flowVersion := definition.version
  definitionHash := definition.fingerprint
  steps := definition.steps
  context := []
  scope := scope
  transaction := transaction
  pendingVariable := none
  lastMessage := none
  pendingInterruption := none
  justResumed := false
  replaced := []

/-- The frame with one more entry of the conversation. -/
def record (frame : Frame) (entry : Entry) : Frame :=
  { frame with context := frame.context ++ [entry] }

/-- The frame without its next step. -/
def popStep (frame : Frame) : Frame :=
  { frame with steps := frame.steps.tail }

/-- The frame with a further step that comes next. -/
def pushStep (frame : Frame) (step : Step) : Frame :=
  { frame with steps := step :: frame.steps }

/-- The frame after it was handed to another flow, in the same scope and with a new transaction. -/
def handTo (frame : Frame) (definition : Definition) (transaction : Transaction) : Frame :=
  { frame with
    flowName := definition.name
    flowId := definition.id
    flowVersion := definition.version
    definitionHash := definition.fingerprint
    steps := definition.steps
    transaction := transaction
    pendingVariable := none
    pendingInterruption := none
    justResumed := false }

/-- Equality of frames. -/
def same (a b : Frame) : Bool :=
  a.flowName == b.flowName && a.flowId == b.flowId && a.flowVersion == b.flowVersion
    && a.definitionHash == b.definitionHash
    && a.steps.length == b.steps.length && (a.steps.zip b.steps).all (fun (x, y) => x.same y)
    && a.context == b.context && a.scope == b.scope && a.transaction.same b.transaction
    && a.pendingVariable == b.pendingVariable && a.lastMessage == b.lastMessage
    && a.pendingInterruption == b.pendingInterruption && a.justResumed == b.justResumed
    && a.replaced.length == b.replaced.length
    && (a.replaced.zip b.replaced).all (fun (x, y) => x.same y)

end Frame

end Parley
