import Parley.Settings.Basic
import Parley.Settings.Layers
import Parley.Settings.Lenient
import Parley.Toml.Document

/-!
# Configuration

The settings of a program come in layers: the standard ones, over them those of
a file, over them those of the environment, and last a language given by the
caller.
-/

set_option autoImplicit false

namespace Parley

/-- What is reported while the program runs. -/
structure Logging where
  level : String
  /-- Reports name the part of the program that they come from. -/
  withTarget : Bool
  deriving DecidableEq, Repr

/-- The settings of a program. -/
structure Config where
  engine : Settings
  logging : Logging
  deriving DecidableEq, Repr

/-- The file that settings are read from. -/
inductive ConfigFile where
  /-- None is named. -/
  | unnamed
  /-- The one that is named does not exist. -/
  | missing
  /-- It has this text. -/
  | text (content : String)
  deriving DecidableEq, Repr

/-- Why there is no configuration. -/
inductive ConfigError where
  /-- A source cannot be read. -/
  | unreadable
  /-- A setting has a value of the wrong kind. -/
  | invalid
  deriving DecidableEq, Repr

namespace ConfigError

/-- The text of the error. -/
def message : ConfigError → String
  | unreadable => "Failed to load configuration"
  | invalid => "Invalid configuration"

end ConfigError

/-- Where settings come from. -/
structure ConfigSources where
  file : ConfigFile
  /-- The variables of the environment with their texts. -/
  environment : List (String × String)
  /-- The language that takes precedence over all others. -/
  language : Option String
  deriving DecidableEq, Repr

namespace Config

/-- The configuration that holds if nothing is told. -/
def standard : Config :=
  ⟨.standard, ⟨"info", true⟩⟩

/-- A configuration as a layer. -/
def toLayer (config : Config) : Toml :=
  let engine := config.engine
  .table [
    ("engine", .table [("language", .str engine.language),
      ("max_stack_depth", .int engine.maxStackDepth),
      ("max_template_depth", .int engine.maxTemplateDepth),
      ("ai_timeout_ms", .int engine.aiTimeout), ("default_max_retries", .int engine.maxRetries),
      ("retry_base_delay_ms", .int engine.retryDelay),
      ("max_steps_per_turn", .int engine.maxSteps),
      ("guidance", .table [("enabled", .bool engine.guidance.enabled),
        ("position", .str engine.guidance.position.name)])]),
    ("logging", .table [("level", .str config.logging.level),
      ("with_target", .bool config.logging.withTarget)])]

/-- What the names of environment variables with settings start with. -/
def environmentMark : String :=
  "cadence__"

/-- The path of keys that an environment variable sets, with points between them. -/
def keyOfVariable? (name : String) : Option String :=
  (Text.after? environmentMark.toList (Text.asciiLower name.toList)).map fun key =>
    String.ofList (Text.replace ['_', '_'] ['.'] key)

/-- The settings of the environment. -/
def environmentLayer (environment : List (String × String)) : List (String × Toml) :=
  environment.filterMap fun (name, text) =>
    (keyOfVariable? name).map fun key => (key, Lenient.ofText text)

/-- The settings of a file. -/
def fileLayer? : ConfigFile → Option (List (String × Toml))
  | .unnamed => some []
  | .missing => none
  | .text content => Toml.ofText? content

/-- The hint about commands in a layer. -/
def guidance? (layer : Toml) : Option Guidance := do
  let standard := Guidance.standard
  let enabled ← Lenient.field? "enabled" 0 standard.enabled Lenient.truth? layer
  let position ← Lenient.field? "position" 1 standard.position
    (Lenient.choice? GuidancePosition.names) layer
  some ⟨enabled, position⟩

/-- The settings of the engine in a layer. -/
def settings? (layer : Toml) : Option Settings := do
  let standard := Settings.standard
  let language ← Lenient.field? "language" 0 standard.language Lenient.string? layer
  let depth ← Lenient.field? "max_stack_depth" 1 standard.maxStackDepth Lenient.natural? layer
  let nesting ← Lenient.field? "max_template_depth" 2 standard.maxTemplateDepth Lenient.natural?
    layer
  let timeout ← Lenient.field? "ai_timeout_ms" 3 standard.aiTimeout Lenient.natural? layer
  let retries ← Lenient.field? "default_max_retries" 4 standard.maxRetries Lenient.halfWord? layer
  let delay ← Lenient.field? "retry_base_delay_ms" 5 standard.retryDelay Lenient.natural? layer
  let steps ← Lenient.field? "max_steps_per_turn" 6 standard.maxSteps Lenient.natural? layer
  let guidance ← Lenient.field? "guidance" 7 standard.guidance guidance? layer
  some ⟨language, depth, nesting, timeout, retries, delay, steps, guidance⟩

/-- The settings about reports in a layer. -/
def logging? (layer : Toml) : Option Logging := do
  let standard := Config.standard.logging
  let level ← Lenient.field? "level" 0 standard.level Lenient.string? layer
  let withTarget ← Lenient.field? "with_target" 1 standard.withTarget Lenient.truth? layer
  some ⟨level, withTarget⟩

/-- The configuration in a layer. -/
def ofLayer? (layer : Toml) : Option Config := do
  let engine ← Lenient.field? "engine" 0 standard.engine settings? layer
  let logging ← Lenient.field? "logging" 1 standard.logging logging? layer
  some ⟨engine, logging⟩

/-- The configuration with the language that takes precedence. -/
def withLanguage (config : Config) : Option String → Config
  | some language => { config with engine := { config.engine with language := language } }
  | none => config

/-- The configuration that the sources give. -/
def load (sources : ConfigSources) : Except ConfigError Config :=
  match fileLayer? sources.file with
  | none => .error .unreadable
  | some file =>
    let layer := Layer.overlay (environmentLayer sources.environment)
      (Layer.overlay file standard.toLayer)
    match ofLayer? layer with
    | none => .error .invalid
    | some config => .ok (config.withLanguage sources.language)

/-- The configuration as a value. -/
def toJson (config : Config) : Json :=
  .obj [("engine", config.engine.toJson),
    ("logging", .obj [("level", .str config.logging.level),
      ("with_target", .bool config.logging.withTarget)])]

end Config

end Parley
