import Parley.Json.Record
import Parley.Tool.Retry

/-!
# Settings

What the engine can be told, with the values that hold if nothing is told.
-/

set_option autoImplicit false

namespace Parley

/-- Where the hint about commands stands beside a question. -/
inductive GuidancePosition where
  | prepend
  | append
  deriving DecidableEq, Repr

namespace GuidancePosition

/-- The name of a position. -/
def name : GuidancePosition → String
  | prepend => "prepend"
  | append => "append"

/-- The positions and their names. -/
def names : Table String GuidancePosition :=
  [("prepend", prepend), ("append", append)]

end GuidancePosition

/-- The hint about commands that accompanies questions. -/
structure Guidance where
  enabled : Bool
  position : GuidancePosition
  deriving DecidableEq, Repr

namespace Guidance

/-- No hints. -/
def standard : Guidance :=
  ⟨false, .append⟩

/-- The fields of the hint in their declared order. -/
def fieldNames : List String :=
  ["enabled", "position"]

/-- The hint that a value describes. -/
def decoder : Decoder Guidance :=
  Record.read fieldNames fun r =>
    Guidance.mk
      <$> r.withDefault "enabled" standard.enabled Decoder.truth
      <*> r.withDefault "position" standard.position (Decoder.choice GuidancePosition.names false)

/-- The hint as a value. -/
def toJson (guidance : Guidance) : Json :=
  .obj [("enabled", .bool guidance.enabled), ("position", .str guidance.position.name)]

end Guidance

/-- The settings of an engine. -/
structure Settings where
  language : String
  /-- How many frames may stand on one level. -/
  maxStackDepth : Nat
  /-- The deepest nesting of placeholders. -/
  maxTemplateDepth : Nat
  /-- How many milliseconds the model may take. -/
  aiTimeout : Nat
  /-- How often steps without own settings try again. -/
  maxRetries : Nat
  /-- The base of the waiting time of steps without own settings, in milliseconds. -/
  retryDelay : Nat
  /-- How many steps one turn may run. -/
  maxSteps : Nat
  guidance : Guidance
  deriving DecidableEq, Repr

namespace Settings

/-- The settings that hold if nothing is told. -/
def standard : Settings :=
  ⟨"en", 20, 10, 1000, 2, 500, 1000, .standard⟩

/-- The fields of the settings in their declared order. -/
def fieldNames : List String :=
  ["language", "max_stack_depth", "max_template_depth", "ai_timeout_ms", "default_max_retries",
    "retry_base_delay_ms", "max_steps_per_turn", "guidance"]

/-- The settings that a value describes. -/
def decoder : Decoder Settings :=
  Record.read fieldNames fun r =>
    Settings.mk
      <$> r.withDefault "language" standard.language Decoder.string
      <*> r.withDefault "max_stack_depth" standard.maxStackDepth Decoder.word
      <*> r.withDefault "max_template_depth" standard.maxTemplateDepth Decoder.word
      <*> r.withDefault "ai_timeout_ms" standard.aiTimeout Decoder.word
      <*> r.withDefault "default_max_retries" standard.maxRetries Decoder.halfWord
      <*> r.withDefault "retry_base_delay_ms" standard.retryDelay Decoder.word
      <*> r.withDefault "max_steps_per_turn" standard.maxSteps Decoder.word
      <*> r.withDefault "guidance" standard.guidance Guidance.decoder

/-- The settings as a value. -/
def toJson (settings : Settings) : Json :=
  .obj [("language", .str settings.language), ("max_stack_depth", .nat settings.maxStackDepth),
    ("max_template_depth", .nat settings.maxTemplateDepth),
    ("ai_timeout_ms", .nat settings.aiTimeout), ("default_max_retries", .nat settings.maxRetries),
    ("retry_base_delay_ms", .nat settings.retryDelay),
    ("max_steps_per_turn", .nat settings.maxSteps), ("guidance", settings.guidance.toJson)]

/-- What holds for steps without own settings for trying again. -/
def retryDefaults (settings : Settings) : RetryDefaults :=
  ⟨settings.maxRetries, settings.retryDelay⟩

end Settings

end Parley
