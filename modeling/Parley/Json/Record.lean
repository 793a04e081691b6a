import Parley.Json.Basic

/-!
# Records in JSON

Decoding a record from an object by its field names, or from a list by the
declared order of its fields.  Of several faults in one record the one whose
entry stands first is reported; a field that is absent counts after all
entries, and of several absent fields the one declared first is reported.
-/

set_option autoImplicit false

namespace Parley

/-- Why a value does not decode. -/
inductive DecodeError where
  /-- A field without default is absent. -/
  | missingField (name : String)
  /-- A field is given twice. -/
  | duplicateField (name : String)
  /-- A name that is none of the fixed choices. -/
  | unknownVariant (name : String)
  /-- A value of another kind than the expected one. -/
  | invalidType
  /-- A value of the expected kind that is out of range. -/
  | invalidValue
  /-- A list that is too long or too short. -/
  | invalidLength
  /-- A rule of the domain is broken. -/
  | rejected (reason : String)
  deriving DecidableEq, Repr

namespace DecodeError

/-- The text of the error. -/
def message : DecodeError → String
  | missingField name => "missing field `" ++ name ++ "`"
  | duplicateField name => "duplicate field `" ++ name ++ "`"
  | unknownVariant name => "unknown variant `" ++ name ++ "`"
  | invalidType => "invalid type"
  | invalidValue => "invalid value"
  | invalidLength => "invalid length"
  | rejected reason => reason

end DecodeError

/-- A way to read values of a type out of JSON. -/
abbrev Decoder (α : Type) : Type :=
  Json → Except DecodeError α

namespace Decoder

/-- Any value. -/
def any : Decoder Json := Except.ok

/-- A string. -/
def string : Decoder String
  | .str s => .ok s
  | _ => .error .invalidType

/-- A truth value. -/
def truth : Decoder Bool
  | .bool b => .ok b
  | _ => .error .invalidType

/-- The entries of an object. -/
def fields : Decoder Fields
  | .obj fields => .ok fields
  | _ => .error .invalidType

/-- A natural number of at most `limit`. -/
def natural (limit : Nat) : Decoder Nat
  | .num (.int n) => if 0 ≤ n && n ≤ limit then .ok n.toNat else .error .invalidValue
  | _ => .error .invalidType

/-- A natural number of 64 bits. -/
def word : Decoder Nat :=
  natural (Nat.pow 2 64 - 1)

/-- A natural number of 32 bits. -/
def halfWord : Decoder Nat :=
  natural (Nat.pow 2 32 - 1)

/-- A value that may be `null`. -/
def nullable {α : Type} (decode : Decoder α) : Decoder (Option α)
  | .null => .ok none
  | value => (decode value).map some

/-- The values of a list, in order. -/
def each {α : Type} (decode : Decoder α) : List Json → Except DecodeError (List α)
  | [] => .ok []
  | item :: items =>
    match decode item with
    | .error e => .error e
    | .ok a => (each decode items).map (a :: ·)

/-- A list. -/
def list {α : Type} (decode : Decoder α) : Decoder (List α)
  | .arr items => each decode items
  | _ => .error .invalidType

/-- A value may accompany a choice that carries nothing: `null`, or where `orEmpty` allows it an
empty object. -/
def carriesNothing (orEmpty : Bool) : Json → Bool
  | .null => true
  | .obj [] => orEmpty
  | _ => false

/-- One of the fixed choices: its name, or an object whose only entry has that name and carries
nothing. -/
def choice {α : Type} (choices : Table String α) (orEmpty : Bool) : Decoder α
  | .str name =>
    match Table.get? name choices with
    | some a => .ok a
    | none => .error (.unknownVariant name)
  | .obj [(name, value)] =>
    match Table.get? name choices with
    | some a => if carriesNothing orEmpty value then .ok a else .error .invalidType
    | none => .error (.unknownVariant name)
  | .obj _ => .error .invalidValue
  | _ => .error .invalidType

end Decoder

/-- A decoding error, and where it stands in its record. -/
structure Fault where
  /-- The place among the entries. -/
  position : Nat
  /-- What is wrong there. -/
  error : DecodeError

/-- The reading of a record or of part of it. -/
structure Reading (α : Type) where
  /-- What was read, or the fault that stands first. -/
  outcome : Except Fault α

namespace Reading

/-- A part that reads nothing. -/
def ok {α : Type} (a : α) : Reading α :=
  ⟨.ok a⟩

/-- A part with a fault. -/
def fault {α : Type} (position : Nat) (error : DecodeError) : Reading α :=
  ⟨.error ⟨position, error⟩⟩

/-- Two parts of one record: of two faults the one that stands first counts. -/
def combine {α β : Type} (f : Reading (α → β)) (a : Reading α) : Reading β :=
  match f.outcome, a.outcome with
  | .ok f, .ok a => ⟨.ok (f a)⟩
  | .ok _, .error e => ⟨.error e⟩
  | .error e, .ok _ => ⟨.error e⟩
  | .error e, .error e' => ⟨.error (if e'.position < e.position then e' else e)⟩

instance : Applicative Reading where
  pure := ok
  seq := fun f a => combine f (a ())

/-- A decoded value as a part of a record. -/
def ofExcept {α : Type} (position : Nat) : Except DecodeError α → Reading α
  | .ok a => ok a
  | .error e => fault position e

/-- The record, or its fault without the place. -/
def result {α : Type} (reading : Reading α) : Except DecodeError α :=
  reading.outcome.mapError Fault.error

end Reading

/-- The slots of a record: its entries by field name. -/
structure Record where
  /-- The entries in order. -/
  entries : List (String × Json)
  /-- The names of the fields, if they were given by their places in a list. -/
  places : Option (List String)

namespace Record

/-- The place of the entry with this name. -/
def indexIn (name : String) : List String → Nat
  | [] => 0
  | n :: names => if n = name then 0 else indexIn name names + 1

/-- The entry with this name, and its place. -/
def find? (name : String) (record : Record) : Option (Nat × Json) :=
  (Table.get? name record.entries).map fun value =>
    (indexIn name (Table.keys record.entries), value)

/-- The fault of an absent field. -/
def absent {α : Type} (name : String) (record : Record) : Reading α :=
  match record.places with
  | none => .fault record.entries.length (.missingField name)
  | some names => .fault (indexIn name names) .invalidLength

/-- A field that has to be there. -/
def required {α : Type} (name : String) (decode : Decoder α) (record : Record) : Reading α :=
  match record.find? name with
  | some (position, value) => .ofExcept position (decode value)
  | none => record.absent name

/-- A field with a default for when it is absent. -/
def withDefault {α : Type} (name : String) (default : α) (decode : Decoder α) (record : Record) :
    Reading α :=
  match record.find? name with
  | some (position, value) => .ofExcept position (decode value)
  | none => .ok default

/-- A field that may be `null`, and in an object absent. -/
def optional {α : Type} (name : String) (decode : Decoder α) (record : Record) :
    Reading (Option α) :=
  match record.find? name with
  | some (position, value) => .ofExcept position (Decoder.nullable decode value)
  | none => if record.places.isNone then .ok none else record.absent name

/-- A field that may be `null` or absent. -/
def orNone {α : Type} (name : String) (decode : Decoder α) (record : Record) :
    Reading (Option α) :=
  record.withDefault name none (Decoder.nullable decode)

/-- Reads a record with the given fields from an object, or from a list of at most as many items. -/
def read {α : Type} (names : List String) (body : Record → Reading α) : Decoder α
  | .obj fields => (body ⟨fields, none⟩).result
  | .arr items =>
    match (body ⟨names.zip items, some names⟩).result with
    | .error e => .error e
    | .ok a => if names.length < items.length then .error .invalidLength else .ok a
  | _ => .error .invalidType

/-- Reads a record from an object only. -/
def readObject {α : Type} (body : Record → Reading α) : Decoder α
  | .obj fields => (body ⟨fields, none⟩).result
  | _ => .error .invalidType

end Record

end Parley
