import Parley.Json.Reader
import Parley.Ledger.Stored
import Parley.Session.Basic

/-!
# Sessions as JSON

The stored form of sessions, which the host keeps between the turns.  Levels,
frames and remaining steps are written from the outermost to the innermost, so
what runs next stands last.
-/

set_option autoImplicit false

namespace Parley

namespace Entry

/-- The entry that a value describes. -/
def decoder : Decoder Entry :=
  Record.read ["role", "content", "timestamp"] fun r =>
    (fun role content (_ : Unit) => ⟨role, content⟩)
      <$> r.required "role" (Decoder.choice Role.names false)
      <*> r.required "content" Decoder.string
      <*> r.required "timestamp" Decoder.moment

/-- The stored form of an entry. -/
def toJson (entry : Entry) : Json :=
  .obj [("role", .str entry.role.name), ("content", .str entry.content),
    ("timestamp", storedMoment)]

end Entry

namespace Frame

/-- The fields of a stored frame in their declared order. -/
def fieldNames : List String :=
  ["flowName", "flowId", "flowVersion", "definitionHash", "stepsStack", "contextStack", "scope",
    "transaction", "pendingVariable", "lastSayMessage", "pendingInterruption", "justResumed",
    "replacedTransactions"]

/-- A pending interruption: the flow that may interrupt, and since when. -/
def interruptionDecoder : Decoder String :=
  Record.read ["targetFlow", "requestedAt"] fun r =>
    (fun target (_ : Unit) => target)
      <$> r.required "targetFlow" Decoder.string
      <*> r.required "requestedAt" Decoder.moment

/-- The stored form of a pending interruption. -/
def interruptionToJson (target : String) : Json :=
  .obj [("targetFlow", .str target), ("requestedAt", storedMoment)]

/-- The frame that a value describes. -/
def decoder : Decoder Frame :=
  Record.read fieldNames fun r =>
    (fun flowName flowId flowVersion definitionHash steps context scope transaction pendingVariable
        lastMessage pendingInterruption justResumed replaced =>
        ⟨flowName, flowId, flowVersion, definitionHash, List.reverse steps, context, scope,
          transaction, pendingVariable, lastMessage, pendingInterruption, justResumed, replaced⟩)
      <$> r.required "flowName" Decoder.string
      <*> r.required "flowId" Decoder.string
      <*> r.required "flowVersion" Decoder.string
      <*> r.required "definitionHash" Decoder.string
      <*> r.required "stepsStack" (Decoder.list (Step.ofJson false))
      <*> r.required "contextStack" (Decoder.list Entry.decoder)
      <*> r.required "scope" Decoder.word
      <*> r.required "transaction" Transaction.decoder
      <*> r.optional "pendingVariable" Decoder.string
      <*> r.optional "lastSayMessage" Decoder.string
      <*> r.optional "pendingInterruption" interruptionDecoder
      <*> r.withDefault "justResumed" false Decoder.truth
      <*> r.withDefault "replacedTransactions" [] (Decoder.list Transaction.decoder)

/-- The stored form of a frame; transactions of former flows are written only if there are some. -/
def toJson (frame : Frame) : Json :=
  .obj ([("flowName", .str frame.flowName), ("flowId", .str frame.flowId),
      ("flowVersion", .str frame.flowVersion), ("definitionHash", .str frame.definitionHash),
      ("stepsStack", .arr (frame.steps.reverse.map Step.toJson)),
      ("contextStack", .arr (frame.context.map Entry.toJson)), ("scope", .nat frame.scope),
      ("transaction", frame.transaction.toJson),
      ("pendingVariable", Json.strOrNull frame.pendingVariable),
      ("lastSayMessage", Json.strOrNull frame.lastMessage),
      ("pendingInterruption", (frame.pendingInterruption.map interruptionToJson).getD .null),
      ("justResumed", .bool frame.justResumed)]
    ++ if frame.replaced.isEmpty then []
      else [("replacedTransactions", .arr (frame.replaced.map Transaction.toJson))])

end Frame

namespace Levels

/-- The frames of a level; the caller stands before the called one. -/
def levelDecoder : Decoder Level := fun value =>
  (Decoder.list Frame.decoder value).map List.reverse

/-- The levels that a value describes. -/
def decoder : Decoder Levels :=
  Record.read ["root", "interruptions"] fun r =>
    (fun root interruptions => ofList (root :: interruptions))
      <$> r.required "root" levelDecoder
      <*> r.required "interruptions" (Decoder.list levelDecoder)

/-- The stored form of a level. -/
def levelToJson (level : Level) : Json :=
  .arr (level.reverse.map Frame.toJson)

/-- The stored form of the levels. -/
def toJson (levels : Levels) : Json :=
  match levels.toList with
  | [] => .obj [("root", .arr []), ("interruptions", .arr [])]
  | root :: interruptions =>
    .obj [("root", levelToJson root), ("interruptions", .arr (interruptions.map levelToJson))]

end Levels

namespace Scopes

/-- The number of a scope as a key: a natural number of 64 bits, without leading zeros. -/
def idOfKey? (key : String) : Option Nat :=
  let digits := key.toList
  let id := Decimal.valueOf digits
  if digits.all Char.isDigit && digits = Decimal.digitsOf id && id < Nat.pow 2 64 then some id else none

/-- The scopes that entries describe. -/
def decodeEntries : List (String × Json) → Except DecodeError (List (Nat × Fields))
  | [] => .ok []
  | (key, value) :: entries =>
    match idOfKey? key, value with
    | some id, .obj vars => (decodeEntries entries).map ((id, vars) :: ·)
    | _, _ => .error .invalidType

/-- The scopes by number. -/
def entriesDecoder : Decoder (Table Nat Fields)
  | .obj entries => (decodeEntries entries).map (Table.sorted idBelow)
  | _ => .error .invalidType

/-- The scopes that a value describes. -/
def decoder : Decoder Scopes :=
  Record.read ["nextId", "scopes"] fun r =>
    Scopes.mk <$> r.required "nextId" Decoder.word <*> r.required "scopes" entriesDecoder

/-- The stored form of scopes. -/
def toJson (scopes : Scopes) : Json :=
  .obj [("nextId", .nat scopes.nextId),
    ("scopes", .obj (scopes.entries.map fun (id, vars) =>
      (Decimal.text id, .obj vars)))]

end Scopes

namespace Session

/-- The fields of a stored session in their declared order. -/
def fieldNames : List String :=
  ["sessionId", "userId", "flowStacks", "scopes", "globalAccumulatedMessages", "lastChatTurn",
    "globalVariables", "history", "createdAt", "updatedAt"]

/-- The session that a value describes. -/
def decoder : Decoder Session :=
  Record.read fieldNames fun r =>
    (fun id userId levels scopes outbox lastEntry globals history (_ : Unit) (_ : Unit) =>
        ⟨id, userId, levels, scopes, outbox, lastEntry, globals, history⟩)
      <$> r.required "sessionId" Decoder.string
      <*> r.required "userId" Decoder.string
      <*> r.required "flowStacks" Levels.decoder
      <*> r.required "scopes" Scopes.decoder
      <*> r.required "globalAccumulatedMessages" (Decoder.list Decoder.string)
      <*> r.optional "lastChatTurn" Entry.decoder
      <*> r.required "globalVariables" Decoder.fields
      <*> r.withDefault "history" [] (Decoder.list Entry.decoder)
      <*> r.required "createdAt" Decoder.moment
      <*> r.required "updatedAt" Decoder.moment

/-- The stored form of a session. -/
def toJson (session : Session) : Json :=
  .obj [("sessionId", .str session.id), ("userId", .str session.userId),
    ("flowStacks", session.levels.toJson), ("scopes", session.scopes.toJson),
    ("globalAccumulatedMessages", .arr (session.outbox.map Json.str)),
    ("lastChatTurn", (session.lastEntry.map Entry.toJson).getD .null),
    ("globalVariables", .obj session.globals),
    ("history", .arr (session.history.map Entry.toJson)), ("createdAt", storedMoment),
    ("updatedAt", storedMoment)]

end Session

/-- What the stored text of a value is read back as. -/
def readBack? {α : Type} (decode : Decoder α) (stored : Json) : Option α :=
  match Json.parseEntries? stored.text.toList with
  | some value => (decode value).toOption
  | none => none

end Parley
