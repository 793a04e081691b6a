import Parley.Engine.Basic

/-!
# Scenes

A step works on a scene: its frame, the variables of the frame's scope, the
input that nobody has taken yet, and the journal.  It sees nothing else of the
session but the names in its stage, and it says how the turn goes on.
-/

set_option autoImplicit false

namespace Parley

/-- What a step can look at beside its scene. -/
structure Stage where
  engine : Engine
  userId : String
  sessionId : String
  /-- The number of frames on the level of the step's frame. -/
  depth : Nat

/-- What a step works on. -/
structure Scene where
  frame : Frame
  /-- The variables of the frame's scope. -/
  vars : Fields
  /-- What the user said, until a question takes it. -/
  input : Option String
  /-- The messages of this step. -/
  said : List String
  journal : Journal

/-- How a turn goes on after a step. -/
inductive Next where
  /-- With the next step of the frame. -/
  | proceed
  /-- With the user's answer. -/
  | await
  /-- Without the frame. -/
  | leave
  /-- With a further frame on top. -/
  | enter (frame : Frame)
  /-- With nothing but a new activation of the flow, if there is one. -/
  | restart (flow : Option Definition)

/-- What became of a step: the scene after it, and how the turn goes on or why it cannot. -/
structure Outcome where
  scene : Scene
  next : Except EngineError Next

namespace Stage

/-- What expressions can see in a scene. -/
def scopeIn (stage : Stage) (scene : Scene) : Scope :=
  ⟨scene.vars,
    { userId := stage.userId
      sessionId := stage.sessionId
      flowName := scene.frame.flowName
      language := stage.engine.settings.language
      now := stage.engine.now scene.journal }⟩

/-- A template rendered in a scene. -/
def render (stage : Stage) (scene : Scene) (template : String) : String :=
  stage.engine.evaluator.interpolate (stage.scopeIn scene) template

/-- A value resolved in a scene. -/
def resolve (stage : Stage) (scene : Scene) (value : Json) : Json :=
  stage.engine.evaluator.resolve (stage.scopeIn scene) value

/-- The text of a message in the language of the engine, rendered in a scene. -/
def wordingIn (stage : Stage) (scene : Scene) (message : Wording) : String :=
  stage.render scene (message.forLanguage stage.engine.settings.language)

end Stage

namespace Scene

/-- The scene with another frame in its place. -/
def withFrame (scene : Scene) (frame : Frame) : Scene :=
  { scene with frame := frame }

/-- The scene with a further message. -/
def tell (scene : Scene) (text : String) : Scene :=
  { scene with said := scene.said ++ [text] }

/-- The scene with a variable set. -/
def store (scene : Scene) (name : String) (value : Json) : Scene :=
  { scene with vars := Table.set name value scene.vars }

/-- The scene with a variable set, if there is one to set. -/
def storeIn (scene : Scene) (name : Option String) (value : Json) : Scene :=
  match name with
  | some name => scene.store name value
  | none => scene

/-- The scene with the variables of a flow set that are absent. -/
def declare (scene : Scene) (flow : Definition) : Scene :=
  { scene with vars := Table.underlay flow.vars scene.vars }

/-- The scene with a text shown by its frame. -/
def display (scene : Scene) (text : String) : Scene :=
  scene.withFrame { scene.frame.record (.assistant text) with lastMessage := some text }

/-- The scene without the next step of its frame. -/
def popStep (scene : Scene) : Scene :=
  scene.withFrame scene.frame.popStep

/-- The scene with a further step that comes next. -/
def pushStep (scene : Scene) (step : Step) : Scene :=
  scene.withFrame (scene.frame.pushStep step)

/-- The scene as the outcome of its step. -/
def outcome (scene : Scene) (next : Next) : Outcome :=
  ⟨scene, .ok next⟩

/-- The scene as the outcome of a step that cannot be finished. -/
def failure (scene : Scene) (error : EngineError) : Outcome :=
  ⟨scene, .error error⟩

/-- Goes on with a further record in the transaction of the frame, if it takes one. -/
def logged (scene : Scene) (record : StepRecord) (next : Scene → Outcome) : Outcome :=
  match scene.frame.transaction.log record with
  | .error e => scene.failure (.transaction e)
  | .ok transaction => next (scene.withFrame { scene.frame with transaction := transaction })

/-- Goes on without the step that was just run, whose success is recorded. -/
def finished (scene : Scene) (kind : StepKind) (id : String) (next : Scene → Outcome) : Outcome :=
  scene.popStep.logged (.plain id kind.name .success) next

end Scene

end Parley
