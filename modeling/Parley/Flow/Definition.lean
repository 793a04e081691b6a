import Parley.Digest.Sha256
import Parley.Flow.Outline
import Parley.Flow.Printer
import Parley.Flow.Reader
import Parley.Json.Printer

/-!
# Definitions of flows

A flow has a name, steps, the initial values of its variables and a
classification.  Its written form is canonical: the fingerprint of a flow is the
digest of that form's text.
-/

set_option autoImplicit false

namespace Parley

/-- The classification of a flow. -/
structure Metadata where
  /-- The declared level of risk. -/
  riskLevel : Option String
  /-- The declared category. -/
  category : Option String
  deriving DecidableEq, Repr

namespace Metadata

/-- No classification. -/
def empty : Metadata :=
  ⟨none, none⟩

/-- The classification that a value describes. -/
def decoder : Decoder Metadata :=
  Record.read ["riskLevel", "category"] fun r =>
    Metadata.mk <$> r.orNone "riskLevel" Decoder.string <*> r.orNone "category" Decoder.string

/-- The classification as a value. -/
def toJson (metadata : Metadata) : Json :=
  .obj (entryIfSome "riskLevel" (metadata.riskLevel.map Json.str)
    ++ entryIfSome "category" (metadata.category.map Json.str))

end Metadata

/-- A flow. -/
structure Definition where
  /-- A second key to find the flow by, if not empty. -/
  id : String
  name : String
  description : String
  version : String
  steps : List Step
  /-- The initial values of the flow's variables. -/
  vars : Fields
  metadata : Metadata

namespace Definition

/-- The fields of a flow in their declared order. -/
def fieldNames : List String :=
  ["id", "name", "description", "version", "steps", "variables", "metadata"]

/-- The flow that a value describes. -/
def decoder : Decoder Definition :=
  Record.read fieldNames fun r =>
    Definition.mk
      <$> r.withDefault "id" "" Decoder.string
      <*> r.required "name" Decoder.string
      <*> r.withDefault "description" "" Decoder.string
      <*> r.withDefault "version" "" Decoder.string
      <*> r.required "steps" (Decoder.list (Step.ofJson false))
      <*> r.withDefault "variables" [] Decoder.fields
      <*> r.withDefault "metadata" Metadata.empty Metadata.decoder

/-- Reads a flow whose outline has been checked. -/
def decode (flow : Json) : Except DefinitionError Definition :=
  (decoder flow).mapError fun e => .malformed (Outline.nameOf flow) (.undecodable e)

/-- Reads a flow. -/
def parse (flow : Json) : Except DefinitionError Definition :=
  match Outline.checkFlow flow with
  | .error e => .error e
  | .ok () => decode flow

/-- Reads flows in order. -/
def parseEach : List Json → Except DefinitionError (List Definition)
  | [] => .ok []
  | flow :: flows =>
    match parse flow with
    | .error e => .error e
    | .ok definition => (parseEach flows).map (definition :: ·)

/-- The name by which errors refer to a collection of flows. -/
def collectionName : String :=
  "<library>"

/-- The flows of a collection: a list, an object with a list of `flows`, or a single flow. -/
def collection : Json → Except DefinitionError (List Json)
  | .arr flows => .ok flows
  | .obj fields =>
    match Table.get? "flows" fields with
    | some (.arr flows) => .ok flows
    | some _ => .error (.malformed collectionName .flowsNotList)
    | none => .ok [.obj fields]
  | _ => .error (.malformed collectionName .notFlows)

/-- Reads a collection of flows. -/
def parseAll (value : Json) : Except DefinitionError (List Definition) :=
  (collection value).bind parseEach

/-- The flow as a value. -/
def toJson (definition : Definition) : Json :=
  .obj [("id", .str definition.id), ("name", .str definition.name),
    ("description", .str definition.description), ("version", .str definition.version),
    ("steps", .arr (definition.steps.map Step.toJson)), ("variables", .obj definition.vars),
    ("metadata", definition.metadata.toJson)]

/-- The text that identifies a flow. -/
def canonicalText (definition : Definition) : String :=
  definition.toJson.text

/-- The digest of the flow's canonical text. -/
def fingerprint (definition : Definition) : String :=
  Sha256.ofString definition.canonicalText

/-- The flow is declared to be of high risk, or its name or category touches money. -/
def isHighRisk (definition : Definition) : Bool :=
  definition.metadata.riskLevel.any (fun level => Text.asciiLower level.toList = "high".toList)
    || isFinancial definition.name
    || definition.metadata.category.any isFinancial

end Definition

end Parley
