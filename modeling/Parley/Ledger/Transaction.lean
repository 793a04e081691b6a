import Parley.Json.Record
import Parley.Ledger.Moment
import Parley.Redaction

/-!
# Transactions

A transaction is the audit record of one activation of a flow.  It starts
active, takes records of steps while it is active, and is finished once, in one
of three ways.  What a record holds of results and errors is redacted first.
-/

set_option autoImplicit false

namespace Parley

/-- How far a transaction has come. -/
inductive TransactionState where
  | active
  | completed
  | failed
  | rolledBack
  deriving DecidableEq, Repr

namespace TransactionState

/-- The name of a state. -/
def name : TransactionState → String
  | active => "active"
  | completed => "completed"
  | failed => "failed"
  | rolledBack => "rolled_back"

/-- The states and their names. -/
def names : Table String TransactionState :=
  [("active", active), ("completed", completed), ("failed", failed), ("rolled_back", rolledBack)]

end TransactionState

/-- What became of a step. -/
inductive StepStatus where
  | success
  | failed
  | retrying
  deriving DecidableEq, Repr

namespace StepStatus

/-- The name of a status. -/
def name : StepStatus → String
  | success => "success"
  | failed => "failed"
  | retrying => "retrying"

/-- The statuses and their names. -/
def names : Table String StepStatus :=
  [("success", success), ("failed", failed), ("retrying", retrying)]

end StepStatus

/-- The record of a step. -/
structure StepRecord where
  stepId : String
  stepType : String
  /-- The tool that was called. -/
  tool : Option String
  /-- What the tool answered. -/
  result : Option Json
  /-- What went wrong. -/
  error : Option String
  status : StepStatus
  /-- The retries made before. -/
  retryCount : Nat

namespace StepRecord

/-- The record of a step that called no tool. -/
def plain (stepId stepType : String) (status : StepStatus) : StepRecord :=
  ⟨stepId, stepType, none, none, none, status, 0⟩

/-- The record without secrets. -/
def redacted (record : StepRecord) : StepRecord :=
  { record with
    result := record.result.map Redaction.value
    error := record.error.map Redaction.text }

/-- Equality of records; results are compared as values. -/
def same (a b : StepRecord) : Bool :=
  a.stepId == b.stepId && a.stepType == b.stepType && a.tool == b.tool
    && (match a.result, b.result with
      | some x, some y => x.same y
      | none, none => true
      | _, _ => false)
    && a.error == b.error && a.status == b.status && a.retryCount == b.retryCount

end StepRecord

/-- A transaction takes no more records once it is finished. -/
inductive TransactionError where
  /-- The transaction was finished in this state. -/
  | alreadyFinished (state : TransactionState)
  deriving DecidableEq, Repr

namespace TransactionError

/-- The text of the error about the transaction with the given id. -/
def message (id : String) : TransactionError → String
  | alreadyFinished state => "transaction " ++ id ++ " is already " ++ state.name

end TransactionError

/-- The audit record of one activation of a flow. -/
structure Transaction where
  flowName : String
  /-- Who or what started the flow. -/
  initiator : String
  userId : String
  /-- The records of the steps in order. -/
  steps : List StepRecord
  state : TransactionState
  /-- Why the transaction was not completed. -/
  failureReason : Option String
  /-- The transaction carries the moment at which it was finished. -/
  finished : Bool

namespace Transaction

/-- The transaction of a flow that has just been started. -/
def start (flowName initiator userId : String) : Transaction :=
  ⟨flowName, initiator, userId, [], .active, none, false⟩

/-- The transaction takes records. -/
def isActive (transaction : Transaction) : Bool :=
  transaction.state = .active

/-- The outcome of an operation that only an active transaction allows. -/
def ifActive (transaction : Transaction) (result : Transaction) :
    Except TransactionError Transaction :=
  if transaction.isActive then .ok result else .error (.alreadyFinished transaction.state)

/-- The transaction with one more record. -/
def log (transaction : Transaction) (record : StepRecord) : Except TransactionError Transaction :=
  transaction.ifActive { transaction with steps := transaction.steps ++ [record.redacted] }

/-- The transaction finished in the given state. -/
def finish (transaction : Transaction) (state : TransactionState) (reason : Option String) :
    Except TransactionError Transaction :=
  transaction.ifActive { transaction with state := state, failureReason := reason, finished := true }

/-- The transaction finished with success. -/
def complete (transaction : Transaction) : Except TransactionError Transaction :=
  transaction.finish .completed none

/-- The transaction finished with a failure. -/
def fail (transaction : Transaction) (reason : String) : Except TransactionError Transaction :=
  transaction.finish .failed (some reason)

/-- The transaction taken back. -/
def rollBack (transaction : Transaction) (reason : String) :
    Except TransactionError Transaction :=
  transaction.finish .rolledBack (some reason)

/-- The transaction after an operation, or unchanged if the operation is refused. -/
def orUnchanged (transaction : Transaction) : Except TransactionError Transaction → Transaction
  | .ok changed => changed
  | .error _ => transaction

/-- The transaction after an operation, which is left out if the transaction is finished. -/
def ifOpen (transaction : Transaction)
    (operation : Transaction → Except TransactionError Transaction) :
    Except TransactionError Transaction :=
  if transaction.isActive then operation transaction else .ok transaction

/-- Equality of transactions. -/
def same (a b : Transaction) : Bool :=
  a.flowName == b.flowName && a.initiator == b.initiator && a.userId == b.userId
    && a.steps.length == b.steps.length
    && (a.steps.zip b.steps).all (fun (x, y) => x.same y)
    && a.state == b.state && a.failureReason == b.failureReason && a.finished == b.finished

end Transaction

end Parley
