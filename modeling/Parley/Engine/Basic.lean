import Parley.Engine.Error
import Parley.Engine.Journal
import Parley.Message.Catalog
import Parley.Settings.Basic
import Parley.Template.Render

/-!
# The engine

An engine holds definitions, settings and the ways to the model and the tools.
It has no state: what changes is the session and the journal.
-/

set_option autoImplicit false

namespace Parley

/-- What conversations are led by. -/
structure Engine where
  library : Library
  registry : Registry
  catalog : Catalog
  settings : Settings
  /-- The variables that new sessions start with. -/
  globals : Fields
  model : Model
  invoker : Invoker
  /-- The text of the current time. -/
  now : Journal → String

/-- What an engine is built from. -/
structure Blueprint where
  /-- Flows that are there already. -/
  library : Library
  /-- Flows to add. -/
  flows : List Definition
  tools : List Tool
  catalog : Catalog
  settings : Settings
  /-- A language that takes precedence over that of the settings. -/
  language : Option String
  globals : Fields
  /-- Whether the references between definitions are checked. -/
  validate : Bool
  model : Option Model
  invoker : Invoker
  now : Journal → String

namespace Blueprint

/-- The settings with the language that takes precedence. -/
def finalSettings (blueprint : Blueprint) : Settings :=
  { blueprint.settings with
    language := blueprint.language.getD blueprint.settings.language }

/-- The engine that is built. -/
def build (blueprint : Blueprint) : Except EngineError Engine := do
  let model ← match blueprint.model with
    | some model => .ok model
    | none => .error .missingModel
  let library ← (blueprint.library.insertAll blueprint.flows).mapError .definition
  let registry ← (Registry.ofList blueprint.tools).mapError .definition
  let problems := if blueprint.validate then References.problems library registry else []
  if problems.isEmpty then
    .ok ⟨library, registry, blueprint.catalog, blueprint.finalSettings, blueprint.globals, model,
      blueprint.invoker, blueprint.now⟩
  else .error (.validation problems)

end Blueprint

namespace Engine

/-- A new session. -/
def startSession (engine : Engine) (userId id : String) : Session :=
  .start id userId engine.globals

/-- The text of a notice in the language of the engine. -/
def notice (engine : Engine) (notice : Notice) (arguments : List (String × String)) : String :=
  engine.catalog.format engine.settings.language notice.key arguments

/-- The evaluator of templates. -/
def evaluator (engine : Engine) : Evaluator :=
  .ofLimit engine.settings.maxTemplateDepth

/-- The reason given when the model takes too long. -/
def modelLate (limit : Nat) : String :=
  "AI call timed out after " ++ Decimal.text limit ++ "ms"

/-- Asks the model, which may take only so long. -/
def ask (engine : Engine) (journal : Journal) (question : Question) :
    Journal × Except String String :=
  let limit := engine.settings.aiTimeout
  let reply := (engine.model journal question).within (some limit) (.error (modelLate limit))
  ((journal.noteQuestion question).later reply.delay, reply.value)

/-- The failure of a tool that takes too long. -/
def toolLate (limit : Nat) : ToolFailure :=
  .plain .timeout ("no response within " ++ Decimal.text limit ++ "ms")

/-- Invokes a tool, which may take only as long as its definition allows. -/
def invoke (engine : Engine) (journal : Journal) (tool : Tool) (args : Json) (userId : String) :
    Journal × Except ToolFailure Json :=
  let invocation : Invocation := ⟨tool.name, args, userId⟩
  let reply := (engine.invoker journal tool invocation).within tool.timeout
    (.error (toolLate (tool.timeout.getD 0)))
  ((journal.noteInvocation invocation).later reply.delay, reply.value)

end Engine

end Parley
