import Parley.Flow.Definition
import Parley.Json.Reader
import Parley.Toml.Document

/-!
# Libraries of flows

A library holds flows in the order in which they were added.  A flow is found by
its name or its id, and no two flows share such a key.  Flows can be added from
the text of a file; the files of a directory are added in the order of their
names.
-/

set_option autoImplicit false

namespace Parley

namespace Definition

/-- The keys by which a flow is found: its name, and its id if that is another text and not
empty. -/
def keys (definition : Definition) : List String :=
  if definition.id.isEmpty || definition.id = definition.name then [definition.name]
  else [definition.name, definition.id]

end Definition

/-- A flow of a library, with the digest of its canonical text. -/
structure Library.Entry where
  definition : Definition
  fingerprint : String

/-- Flows that are found by name or id. -/
structure Library where
  /-- The flows in the order in which they were added. -/
  entries : List Library.Entry
  /-- The place among the flows for each key. -/
  places : Table String Nat

namespace Library

/-- No flows. -/
def empty : Library :=
  ⟨[], []⟩

/-- The flows in the order in which they were added. -/
def flows (library : Library) : List Definition :=
  library.entries.map Entry.definition

/-- The entry of the flow with this name or id. -/
def entry? (library : Library) (key : String) : Option Entry :=
  (Table.get? key library.places).bind fun place => library.entries[place]?

/-- The flow with this name or id. -/
def get? (library : Library) (key : String) : Option Definition :=
  (library.entry? key).map Entry.definition

/-- The digest of the flow with this name or id. -/
def fingerprint? (library : Library) (key : String) : Option String :=
  (library.entry? key).map Entry.fingerprint

/-- The names of the flows in order. -/
def names (library : Library) : List String :=
  library.flows.map Definition.name

/-- The library with one more flow at the end, found by its keys from now on. -/
def add (library : Library) (definition : Definition) : Library where
  entries := library.entries ++ [⟨definition, definition.fingerprint⟩]
  places :=
    Table.overlay (definition.keys.map fun key => (key, library.entries.length)) library.places

/-- The library after one more flow was to be added, and the refusal if a key of it is taken. -/
def register (library : Library) (definition : Definition) : Library × Option DefinitionError :=
  match definition.keys.find? fun key => Table.has key library.places with
  | some key => (library, some (.duplicate .flow key))
  | none => (library.add definition, none)

/-- The library with one more flow, whose keys must not be taken. -/
def insert (library : Library) (definition : Definition) : Except DefinitionError Library :=
  match library.register definition with
  | (library, none) => .ok library
  | (_, some e) => .error e

/-- The library with flows added one after another until one is refused, and that refusal. -/
def insertUntil (library : Library) : List Definition → Library × Option DefinitionError
  | [] => (library, none)
  | definition :: definitions =>
    match library.register definition with
    | (library, some e) => (library, some e)
    | (library, none) => insertUntil library definitions

/-- The library with several more flows. -/
def insertAll (library : Library) (definitions : List Definition) :
    Except DefinitionError Library :=
  match library.insertUntil definitions with
  | (library, none) => .ok library
  | (_, some e) => .error e

/-- The library of the given flows. -/
def ofList (definitions : List Definition) : Except DefinitionError Library :=
  empty.insertAll definitions

/-- The library of a collection of flows. -/
def ofJson (value : Json) : Except DefinitionError Library :=
  (Definition.parseAll value).bind ofList

end Library

/-- The notations of files with flows. -/
inductive FileFormat where
  | json
  | toml
  deriving DecidableEq, Repr

namespace FileFormat

/-- The ending of a file name: what follows its last point, unless that point is its first
character. -/
def ending (file : List Char) : List Char :=
  match (Text.splitOn (· = '.') file).reverse with
  | [_, []] => []
  | last :: _ :: _ => last
  | _ => []

/-- The notation of a file, which is JSON unless the ending of its name tells otherwise. -/
def ofFileName (file : String) : FileFormat :=
  if ending file.toList = "toml".toList then toml else json

/-- The file is one that a directory contributes. -/
def isFlowFile (file : String) : Bool :=
  ending file.toList = "json".toList || ending file.toList = "toml".toList

/-- The value that a text in this notation stands for. -/
def read? : FileFormat → String → Option Json
  | json, text => Json.ofText? text
  | toml, text => (Toml.ofText? text).map fun entries => (Toml.table entries).toJson

end FileFormat

/-- Why the flows of a file were not loaded. -/
inductive LoadError where
  /-- There is no such directory. -/
  | noDirectory (directory : String)
  /-- There is no such file. -/
  | noFile (file : String)
  /-- The text of the file is not in the notation of its name. -/
  | unreadable (format : FileFormat) (file : String)
  /-- The file holds something that is no flow. -/
  | invalid (file : String) (cause : DefinitionError)
  /-- A flow of the file has a key that is taken. -/
  | taken (file : String) (cause : DefinitionError)
  deriving DecidableEq, Repr

namespace LoadError

/-- The text of the error. -/
def message : LoadError → String
  | noDirectory directory => "Failed to read flow directory " ++ directory
  | noFile file => "Failed to read flow file " ++ file
  | unreadable .json file => "Failed to parse JSON in " ++ file
  | unreadable .toml file => "Failed to parse TOML in " ++ file
  | invalid file _ => "Invalid flow definitions in " ++ file
  | taken file _ => "Failed to register flows from " ++ file

/-- The error of a definition behind the error. -/
def cause? : LoadError → Option DefinitionError
  | invalid _ cause => some cause
  | taken _ cause => some cause
  | _ => none

end LoadError

namespace Library

/-- The flows in the text of a file; there is no text if there is no such file. -/
def flowsIn (file : String) (content : Option String) : Except LoadError (List Definition) :=
  match content with
  | none => .error (.noFile file)
  | some text =>
    match (FileFormat.ofFileName file).read? text with
    | none => .error (.unreadable (FileFormat.ofFileName file) file)
    | some value => (Definition.parseAll value).mapError (LoadError.invalid file)

/-- The library with the flows of a file, and how many these are.  Flows in front of one that is
refused stay in the library. -/
def loadFile (library : Library) (file : String) (content : Option String) :
    Library × Except LoadError Nat :=
  match flowsIn file content with
  | .error e => (library, .error e)
  | .ok definitions =>
    match library.insertUntil definitions with
    | (library, some e) => (library, .error (.taken file e))
    | (library, none) => (library, .ok definitions.length)

/-- The library with the flows of several files, one file after another. -/
def loadFiles (library : Library) : List (String × String) → Except LoadError Library
  | [] => .ok library
  | (file, text) :: files =>
    match library.loadFile file (some text) with
    | (_, .error e) => .error e
    | (library, .ok _) => loadFiles library files

/-- The library of the flows in a directory, whose files are given with their texts if it exists. -/
def ofDirectory (directory : String) (files : Option (List (String × String))) :
    Except LoadError Library :=
  match files with
  | none => .error (.noDirectory directory)
  | some files =>
    empty.loadFiles (Table.sorted textBelow (files.filter fun file => FileFormat.isFlowFile file.1))

end Library

end Parley
