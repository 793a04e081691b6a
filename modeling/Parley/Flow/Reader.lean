import Parley.Flow.Step

/-!
# Steps out of JSON

A step is an object that names its kind under `type`, or a list that starts with
the name of the kind and goes on with the fields in their declared order.
Messages with variants have no list form, because their further entries have no
fixed order.
-/

set_option autoImplicit false

namespace Parley

namespace Record

/-- A field whose value has been decoded already. -/
def settled {α : Type} (name : String) (outcome : Option (Except DecodeError α))
    (record : Record) : Reading α :=
  match record.find? name, outcome with
  | some (position, _), some outcome => .ofExcept position outcome
  | _, _ => record.absent name

/-- A field that may be absent and whose value has been decoded already. -/
def settledOrNone {α : Type} (name : String)
    (outcome : Option (Except DecodeError (Option α))) (record : Record) : Reading (Option α) :=
  match record.find? name, outcome with
  | some (position, _), some outcome => .ofExcept position outcome
  | _, _ => .ok none

/-- A field with a second name; it must not be given under both. -/
def requiredAs {α : Type} (name second : String) (decode : Decoder α) (record : Record) :
    Reading α :=
  match record.find? name, record.find? second with
  | some (p, value), none => .ofExcept p (decode value)
  | none, some (p, value) => .ofExcept p (decode value)
  | none, none => record.absent name
  | some (p, value), some (q, other) =>
    (fun a _ => a) <$> Reading.ofExcept (min p q) (decode (if p < q then value else other))
      <*> (Reading.fault (max p q) (.duplicateField name) : Reading Unit)

end Record

namespace StepKind

/-- The fields of each kind of step in their declared order. -/
def fieldNames : StepKind → List String
  | say => ["id", "value"]
  | ask => ["id", "value", "variable"]
  | set => ["id", "variable", "value"]
  | switch => ["id", "variable", "branches"]
  | choose => ["id", "branches"]
  | callTool => ["id", "tool", "args", "variable", "retry", "onFail", "retryCount"]
  | callFlow => ["id", "flow", "callType"]

/-- The kind that the tag of a step stands for.  Inside another step the tag may also be the number
of the kind. -/
def ofTag (nested : Bool) : Decoder StepKind
  | .str name =>
    match ofName? name with
    | some kind => .ok kind
    | none => .error (.unknownVariant name)
  | .num (.int n) =>
    if nested && 0 ≤ n then
      match all[n.toNat]? with
      | some kind => .ok kind
      | none => .error .invalidValue
    else .error .invalidType
  | _ => .error .invalidType

end StepKind

namespace Step

/-- The key of the tag. -/
def tagKey : String :=
  "type"

/-- The record of a step without its tag. -/
def recordOf (fields : List (String × Json)) : Record :=
  ⟨fields.filter fun entry => entry.1 ≠ tagKey, none⟩

/-- The message of a step: its text, and every entry without declared name as a variant. -/
def wording (declared : List String) (record : Record) : Reading Wording :=
  (fun base => ⟨base, Table.sorted textBelow
      (record.entries.filter fun entry => !(declared.contains entry.1))⟩)
    <$> record.requiredAs "value" "prompt" Decoder.string

/-- The id of a step. -/
def idIn (record : Record) : Reading String :=
  record.withDefault "id" "" Decoder.string

/-- The call of a tool in the record of a step. -/
def callIn (record : Record) : Reading ToolCall :=
  ToolCall.mk
    <$> record.required "tool" Decoder.string
    <*> record.orNone "args" Decoder.any
    <*> record.orNone "variable" Decoder.string
    <*> record.orNone "retry" (RetryPolicy.decoder true)
    <*> record.withDefault "retryCount" 0 Decoder.halfWord

/-- What the recursive fields of a step were decoded to, if they are there. -/
structure Parts where
  /-- The branches. -/
  branches : Option (Except DecodeError (List (String × Step)))
  /-- The handler of a failure. -/
  onFail : Option (Except DecodeError (Option Step))

/-- Branches on conditions out of branches on keys. -/
def guarded : List (String × Step) → Except DecodeError (List (Guard × Step))
  | [] => .ok []
  | (key, step) :: rest =>
    match Guard.ofKey? key with
    | some guard => (guarded rest).map ((guard, step) :: ·)
    | none =>
      .error (.rejected
        ("CASE branch key '" ++ key ++ "' must be 'default' or start with 'condition:'"))

/-- The step of the given kind in a record. -/
def ofRecord (kind : StepKind) (parts : Parts) (record : Record) : Reading Step :=
  match kind with
  | .say => say <$> idIn record <*> wording ["id", "value", "prompt"] record
  | .ask =>
    ask <$> idIn record <*> wording ["id", "value", "prompt", "variable"] record
      <*> record.orNone "variable" Decoder.string
  | .set =>
    set <$> idIn record <*> record.required "variable" Decoder.string
      <*> record.required "value" Decoder.any
  | .switch =>
    switch <$> idIn record <*> record.required "variable" Decoder.string
      <*> record.settled "branches" parts.branches
  | .choose =>
    choose <$> idIn record
      <*> record.settled "branches" (parts.branches.map fun branches => branches.bind guarded)
  | .callTool =>
    (fun id call onFail => callTool id call onFail) <$> idIn record <*> callIn record
      <*> record.settledOrNone "onFail" parts.onFail
  | .callFlow =>
    callFlow <$> idIn record <*> record.requiredAs "flow" "value" Decoder.string
      <*> record.withDefault "callType" .call (Decoder.choice CallType.names true)

/-- A step of the given kind in an object. -/
def ofFields (kind : StepKind) (parts : Parts) (fields : List (String × Json)) :
    Except DecodeError Step :=
  (ofRecord kind parts (recordOf fields)).result

/-- A step of the given kind in the items that follow the tag. -/
def ofItems (kind : StepKind) (parts : Parts) (items : List Json) : Except DecodeError Step :=
  match kind with
  | .say | .ask => .error .invalidType
  | kind => Record.read kind.fieldNames (ofRecord kind parts) (.arr items)

mutual

/-- The step that a value describes; `nested` tells that it stands inside another step. -/
def ofJson (nested : Bool) : Json → Except DecodeError Step
  | .obj fields =>
    match Table.get? tagKey fields with
    | none => .error (.missingField tagKey)
    | some tag => (StepKind.ofTag nested tag).bind fun kind =>
      ofFields kind ⟨branchesIn fields, handlerIn fields⟩ fields
  | .arr [] => .error (.missingField tagKey)
  | .arr (tag :: items) => (StepKind.ofTag nested tag).bind fun kind =>
    ofItems kind ⟨branchesAt kind.fieldNames items, handlerAt kind.fieldNames items⟩ items
  | _ => .error .invalidType

/-- The branches among the entries of a step. -/
def branchesIn : List (String × Json) → Option (Except DecodeError (List (String × Step)))
  | [] => none
  | (key, value) :: fields => if key = "branches" then some (branches value) else branchesIn fields

/-- The handler of a failure among the entries of a step. -/
def handlerIn : List (String × Json) → Option (Except DecodeError (Option Step))
  | [] => none
  | (key, value) :: fields => if key = "onFail" then some (handler value) else handlerIn fields

/-- The branches among the items of a step with the given fields. -/
def branchesAt : List String → List Json → Option (Except DecodeError (List (String × Step)))
  | name :: names, value :: items =>
    if name = "branches" then some (branches value) else branchesAt names items
  | _, _ => none

/-- The handler of a failure among the items of a step with the given fields. -/
def handlerAt : List String → List Json → Option (Except DecodeError (Option Step))
  | name :: names, value :: items =>
    if name = "onFail" then some (handler value) else handlerAt names items
  | _, _ => none

/-- The branches that a value describes. -/
def branches : Json → Except DecodeError (List (String × Step))
  | .obj entries => branchList entries
  | _ => .error .invalidType

/-- The branches of a list of entries, in order. -/
def branchList : List (String × Json) → Except DecodeError (List (String × Step))
  | [] => .ok []
  | (key, value) :: entries =>
    match ofJson true value with
    | .error e => .error e
    | .ok step => (branchList entries).map ((key, step) :: ·)

/-- The handler that a value describes; `null` stands for none. -/
def handler : Json → Except DecodeError (Option Step)
  | .null => .ok none
  | value => (ofJson true value).map some

end

end Step

end Parley
