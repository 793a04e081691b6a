import Parley.Flow.Error
import Parley.Flow.Printer
import Parley.Json.Record

/-!
# Definitions of tools

A tool has a name, a description of its parameters and an implementation.  A
registry holds tools of different names in ascending order of the names.
-/

set_option autoImplicit false

namespace Parley

/-- How a tool is carried out. -/
structure Implementation where
  /-- The kind of implementation. -/
  kind : String
  /-- The name of the function that carries it out. -/
  function : Option String
  /-- The further entries in order. -/
  extra : Fields

namespace Implementation

/-- An implementation that names nothing. -/
def empty : Implementation :=
  ⟨"", none, []⟩

/-- The implementation that a value describes; every entry without declared name is kept. -/
def decoder : Decoder Implementation :=
  Record.readObject fun r =>
    (fun kind function =>
        ⟨kind, function, r.entries.filter fun entry => !(["type", "function"].contains entry.1)⟩)
      <$> r.withDefault "type" "" Decoder.string
      <*> r.orNone "function" Decoder.string

/-- The implementation as a value. -/
def toJson (implementation : Implementation) : Json :=
  .obj ([("type", .str implementation.kind)]
    ++ entryIfSome "function" (implementation.function.map Json.str) ++ implementation.extra)

end Implementation

/-- A tool. -/
structure Tool where
  /-- A second key to find the tool by. -/
  id : String
  name : String
  description : String
  /-- A description of the arguments. -/
  parameters : Json
  implementation : Implementation
  /-- How many milliseconds a call may take. -/
  timeout : Option Nat

namespace Tool

/-- The fields of a tool in their declared order. -/
def fieldNames : List String :=
  ["id", "name", "description", "parameters", "implementation", "timeoutMs"]

/-- The tool that a value describes. -/
def decoder : Decoder Tool :=
  Record.read fieldNames fun r =>
    Tool.mk
      <$> r.withDefault "id" "" Decoder.string
      <*> r.required "name" Decoder.string
      <*> r.withDefault "description" "" Decoder.string
      <*> r.withDefault "parameters" .null Decoder.any
      <*> r.withDefault "implementation" Implementation.empty Implementation.decoder
      <*> r.orNone "timeoutMs" Decoder.word

/-- The tool as a value. -/
def toJson (tool : Tool) : Json :=
  .obj ([("id", .str tool.id), ("name", .str tool.name), ("description", .str tool.description),
      ("parameters", tool.parameters), ("implementation", tool.implementation.toJson)]
    ++ entryIfSome "timeoutMs" (tool.timeout.map Json.nat))

end Tool

/-- Tools by name. -/
structure Registry where
  /-- The tools by their names, in ascending order. -/
  tools : Table String Tool

namespace Registry

/-- No tools. -/
def empty : Registry :=
  ⟨[]⟩

/-- The registry with one more tool, whose name must not be taken. -/
def insert (registry : Registry) (tool : Tool) : Except DefinitionError Registry :=
  if Table.has tool.name registry.tools then .error (.duplicate .tool tool.name)
  else .ok ⟨Table.setSorted textBelow tool.name tool registry.tools⟩

/-- The registry with several more tools. -/
def insertAll (registry : Registry) : List Tool → Except DefinitionError Registry
  | [] => .ok registry
  | tool :: tools => (registry.insert tool).bind fun registry => insertAll registry tools

/-- The registry of the given tools. -/
def ofList (tools : List Tool) : Except DefinitionError Registry :=
  empty.insertAll tools

/-- The tools in ascending order of their names. -/
def toList (registry : Registry) : List Tool :=
  registry.tools.map Prod.snd

/-- The tool with this name, else the first one with this id. -/
def get? (registry : Registry) (key : String) : Option Tool :=
  (Table.get? key registry.tools).or (registry.toList.find? fun tool => tool.id = key)

end Registry

end Parley
