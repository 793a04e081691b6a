import Parley.Turn.Scene

/-!
# Steps that talk and set variables

A question stays the next step of its frame until its answer has arrived, if it
names a variable for the answer; without one it is finished when it is asked.
-/

set_option autoImplicit false

namespace Parley

namespace Stage

/-- Shows a message. -/
def say (stage : Stage) (id : String) (message : Wording) (scene : Scene) : Outcome :=
  let text := stage.wordingIn scene message
  ((scene.display text).tell text).finished .say id fun scene => scene.outcome .proceed

/-- A question with the hint about commands, which is left out right after an interruption. -/
def question (stage : Stage) (justResumed : Bool) (text : String) : String :=
  let guidance := stage.engine.settings.guidance
  let hint := stage.engine.notice .guidance []
  if guidance.enabled && !justResumed then
    match guidance.position with
    | .prepend => Session.joinMessages [hint, text]
    | .append => Session.joinMessages [text, hint]
  else text

/-- Asks a question. -/
def prompt (stage : Stage) (id : String) (message : Wording) (target : Option String)
    (scene : Scene) : Outcome :=
  let text := stage.wordingIn scene message
  let question := stage.question scene.frame.justResumed text
  let asking := scene.withFrame { scene.frame with justResumed := false }
  let asking := asking.display text
  match target with
  | some target =>
    ((asking.withFrame { asking.frame with pendingVariable := some target }).tell question).outcome
      .await
  | none => asking.finished .ask id fun scene => (scene.tell question).outcome .await

/-- Takes the answer to a question. -/
def answer (id target input : String) (scene : Scene) : Outcome :=
  let scene := { scene with input := none }
  let scene := scene.store target (.str input)
  let scene := scene.withFrame { scene.frame with pendingVariable := none }
  scene.finished .ask id fun scene => scene.outcome .proceed

/-- Takes the answer to a question if the frame waits for one and there is one, else asks. -/
def ask (stage : Stage) (id : String) (message : Wording) (target : Option String)
    (scene : Scene) : Outcome :=
  match scene.frame.pendingVariable, scene.input with
  | some waiting, some input => answer id waiting input scene
  | _, _ => stage.prompt id message target scene

/-- Sets a variable. -/
def set (stage : Stage) (id target : String) (value : Json) (scene : Scene) : Outcome :=
  (scene.store target (stage.resolve scene value)).finished .set id fun scene =>
    scene.outcome .proceed

end Stage

end Parley
