import Parley.Ledger.Transaction

/-!
# Transactions as JSON

The stored form of transactions and of their records.  It carries ids, durations
and moments, which are checked when it is read and not kept.
-/

set_option autoImplicit false

namespace Parley

namespace Decoder

/-- A moment, which is checked and not kept. -/
def moment : Decoder Unit
  | .str s => if Moment.isMoment s then .ok () else .error (.rejected "invalid moment")
  | _ => .error .invalidType

end Decoder

/-- The moment that is written, as a value. -/
def storedMoment : Json :=
  .str Moment.epoch

namespace StepRecord

/-- The fields of a stored record in their declared order. -/
def fieldNames : List String :=
  ["stepId", "stepType", "tool", "result", "error", "durationMs", "status", "retryCount",
    "loggedAt"]

/-- The record that a value describes. -/
def decoder : Decoder StepRecord :=
  Record.read fieldNames fun r =>
    (fun stepId stepType tool result error (_ : Nat) status retryCount (_ : Unit) =>
        ⟨stepId, stepType, tool, result, error, status, retryCount⟩)
      <$> r.required "stepId" Decoder.string
      <*> r.required "stepType" Decoder.string
      <*> r.optional "tool" Decoder.string
      <*> r.optional "result" Decoder.any
      <*> r.optional "error" Decoder.string
      <*> r.required "durationMs" Decoder.word
      <*> r.required "status" (Decoder.choice StepStatus.names false)
      <*> r.required "retryCount" Decoder.halfWord
      <*> r.required "loggedAt" Decoder.moment

/-- The stored form of a record. -/
def toJson (record : StepRecord) : Json :=
  .obj [("stepId", .str record.stepId), ("stepType", .str record.stepType),
    ("tool", Json.strOrNull record.tool), ("result", record.result.getD .null),
    ("error", Json.strOrNull record.error), ("durationMs", .nat 0),
    ("status", .str record.status.name), ("retryCount", .nat record.retryCount),
    ("loggedAt", storedMoment)]

end StepRecord

namespace Transaction

/-- The fields of a stored transaction in their declared order. -/
def fieldNames : List String :=
  ["id", "flowName", "initiator", "userId", "steps", "state", "failureReason", "createdAt",
    "updatedAt", "finishedAt"]

/-- The transaction that a value describes. -/
def decoder : Decoder Transaction :=
  Record.read fieldNames fun r =>
    (fun (_ : String) flowName initiator userId steps state failureReason (_ : Unit) (_ : Unit)
        (finishedAt : Option Unit) =>
        ⟨flowName, initiator, userId, steps, state, failureReason, finishedAt.isSome⟩)
      <$> r.required "id" Decoder.string
      <*> r.required "flowName" Decoder.string
      <*> r.required "initiator" Decoder.string
      <*> r.required "userId" Decoder.string
      <*> r.required "steps" (Decoder.list StepRecord.decoder)
      <*> r.required "state" (Decoder.choice TransactionState.names false)
      <*> r.optional "failureReason" Decoder.string
      <*> r.required "createdAt" Decoder.moment
      <*> r.required "updatedAt" Decoder.moment
      <*> r.optional "finishedAt" Decoder.moment

/-- The stored form of a transaction. -/
def toJson (transaction : Transaction) : Json :=
  .obj [("id", .str ""), ("flowName", .str transaction.flowName),
    ("initiator", .str transaction.initiator), ("userId", .str transaction.userId),
    ("steps", .arr (transaction.steps.map StepRecord.toJson)),
    ("state", .str transaction.state.name),
    ("failureReason", Json.strOrNull transaction.failureReason), ("createdAt", storedMoment),
    ("updatedAt", storedMoment),
    ("finishedAt", if transaction.finished then storedMoment else .null)]

end Transaction

end Parley
