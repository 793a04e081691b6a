import Parley.Proofs.Rounds

/-!
# What the input has no part in

Only a question that a frame waits for takes the input.  Every other step does with
one input what it does with any other, and hands the input on.
-/

set_option autoImplicit false

namespace Parley

/-- The scene with another input. -/
def Scene.hearing (scene : Scene) (input : Option String) : Scene :=
  { scene with input := input }

/-- The outcome with another input in its scene. -/
def Outcome.hearing (outcome : Outcome) (input : Option String) : Outcome :=
  ⟨outcome.scene.hearing input, outcome.next⟩

/-- The turn with another input. -/
def Turn.hearing (turn : Turn) (input : Option String) : Turn :=
  { turn with input := input }

namespace Scene

theorem logged_hearing (scene : Scene) (input : Option String) (record : StepRecord)
    {next : Scene → Outcome}
    (hnext : ∀ s : Scene, next (s.hearing input) = (next s).hearing input) :
    (scene.hearing input).logged record next = (scene.logged record next).hearing input := by
  have hframe : (scene.hearing input).frame = scene.frame := rfl
  unfold logged
  rw [hframe]
  cases scene.frame.transaction.log record with
  | error e => rfl
  | ok transaction => exact hnext (scene.withFrame { scene.frame with transaction := transaction })

theorem finished_hearing (scene : Scene) (input : Option String) (kind : StepKind) (id : String)
    {next : Scene → Outcome}
    (hnext : ∀ s : Scene, next (s.hearing input) = (next s).hearing input) :
    (scene.hearing input).finished kind id next = (scene.finished kind id next).hearing input :=
  logged_hearing scene.popStep input _ hnext

end Scene

namespace Stage

variable (stage : Stage) (scene : Scene) (input : Option String)

theorem say_hearing (id : String) (message : Wording) :
    stage.say id message (scene.hearing input) = (stage.say id message scene).hearing input := by
  have htext : stage.wordingIn (scene.hearing input) message = stage.wordingIn scene message := rfl
  simp only [say, htext]
  exact Scene.finished_hearing ((scene.display _).tell _) input _ _ fun _ => rfl

theorem prompt_hearing (id : String) (message : Wording) (target : Option String) :
    stage.prompt id message target (scene.hearing input) =
      (stage.prompt id message target scene).hearing input := by
  cases target with
  | some target => rfl
  | none =>
      have htext : stage.wordingIn (scene.hearing input) message = stage.wordingIn scene message :=
        rfl
      simp only [prompt, htext]
      exact Scene.finished_hearing
        ((scene.withFrame { scene.frame with justResumed := false }).display _) input _ _
        fun _ => rfl

variable {scene} in
theorem ask_hearing (hpending : scene.frame.pendingVariable = none) (id : String)
    (message : Wording) (target : Option String) :
    stage.ask id message target (scene.hearing input) =
      (stage.ask id message target scene).hearing input := by
  have hheard : (scene.hearing input).frame.pendingVariable = none := hpending
  simp only [ask, hpending, hheard]
  exact stage.prompt_hearing scene input id message target

theorem set_hearing (id target : String) (value : Json) :
    stage.set id target value (scene.hearing input) =
      (stage.set id target value scene).hearing input := by
  have hvalue : stage.resolve (scene.hearing input) value = stage.resolve scene value := rfl
  simp only [set, hvalue]
  exact Scene.finished_hearing (scene.store target _) input _ _ fun _ => rfl

theorem takeBranch_hearing (kind : StepKind) (id : String) (branch : Option Step)
    (missing : String) :
    takeBranch kind id branch missing (scene.hearing input) =
      (takeBranch kind id branch missing scene).hearing input := by
  cases branch with
  | none => rfl
  | some step => exact Scene.finished_hearing scene input _ _ fun _ => rfl

theorem callSucceeded_hearing (id : String) (call : ToolCall) (tool : Tool) (result : Json) :
    callSucceeded id call tool result (scene.hearing input) =
      (callSucceeded id call tool result scene).hearing input := by
  have hstored : (scene.hearing input).storeIn call.target result =
      (scene.storeIn call.target result).hearing input := by
    cases call.target <;> rfl
  simp only [callSucceeded, hstored]
  exact Scene.logged_hearing
    ((scene.storeIn call.target result).popStep.withFrame
      ((scene.storeIn call.target result).popStep.frame.record _)) input _ fun _ => rfl

theorem callFailed_hearing (id : String) (call : ToolCall) (onFail : Option Step)
    (failure : ToolFailure) :
    stage.callFailed id call onFail failure (scene.hearing input) =
      (stage.callFailed id call onFail failure scene).hearing input := by
  have hframe : (scene.hearing input).frame = scene.frame := rfl
  simp only [callFailed, hframe]
  split
  · exact Scene.logged_hearing scene input _ fun _ => rfl
  · refine Scene.logged_hearing scene input _ fun s => ?_
    cases call.target <;> cases onFail <;> rfl

theorem callTool_hearing (id : String) (call : ToolCall) (onFail : Option Step) :
    stage.callTool id call onFail (scene.hearing input) =
      (stage.callTool id call onFail scene).hearing input := by
  unfold callTool
  cases stage.engine.registry.get? call.tool with
  | none => exact stage.callFailed_hearing scene input id call onFail _
  | some tool =>
      have hattempt : stage.attempt call tool (scene.hearing input) =
          stage.attempt call tool scene := rfl
      simp only [hattempt]
      rcases stage.attempt call tool scene with ⟨journal, failure | result⟩
      · exact stage.callFailed_hearing { scene with journal := journal } input id call onFail _
      · exact callSucceeded_hearing { scene with journal := journal } input id call tool result

theorem unknownFlow_hearing (id flow : String) (callType : CallType) :
    stage.unknownFlow id flow callType (scene.hearing input) =
      (stage.unknownFlow id flow callType scene).hearing input := by
  cases callType with
  | reboot => rfl
  | call | replace => exact Scene.finished_hearing scene input _ _ fun _ => rfl

theorem call_hearing (id : String) (flow : Definition) :
    stage.call id flow (scene.hearing input) = (stage.call id flow scene).hearing input := by
  unfold call
  simp only
  split
  · rfl
  · exact Scene.finished_hearing scene input _ _ fun _ => rfl

theorem replace_hearing (id : String) (flow : Definition) :
    stage.replace id flow (scene.hearing input) = (stage.replace id flow scene).hearing input := by
  refine Scene.finished_hearing scene input _ _ fun s => ?_
  have hframe : (s.hearing input).frame = s.frame := rfl
  simp only [hframe]
  cases s.frame.transaction.ifOpen fun transaction => transaction.fail replacedReason with
  | error e => rfl
  | ok closed => rfl

theorem callFlow_hearing (id flow : String) (callType : CallType) :
    stage.callFlow id flow callType (scene.hearing input) =
      (stage.callFlow id flow callType scene).hearing input := by
  unfold callFlow
  cases stage.engine.library.get? flow with
  | none => exact stage.unknownFlow_hearing scene input id flow callType
  | some definition =>
      cases callType with
      | call => exact stage.call_hearing scene input id definition
      | replace => exact stage.replace_hearing scene input id definition
      | reboot => rfl

end Stage

namespace Turn

variable {engine : Engine} {turn : Turn}

/-- A step that is no question, or whose frame does not wait, does the same with every input. -/
theorem perform_hearing (stage : Stage) {step : Step} (scene : Scene)
    (hready : step.kind = .ask → scene.frame.pendingVariable = none) (input : Option String) :
    perform stage step (scene.hearing input) = (perform stage step scene).hearing input := by
  cases step with
  | say id message => exact stage.say_hearing scene input id message
  | ask id message target => exact stage.ask_hearing input (hready rfl) id message target
  | set id target value => exact stage.set_hearing scene input id target value
  | switch id subject branches => exact Stage.takeBranch_hearing scene input _ id _ _
  | choose id branches => exact Stage.takeBranch_hearing scene input _ id _ _
  | callTool id call onFail => exact stage.callTool_hearing scene input id call onFail
  | callFlow id flow callType => exact stage.callFlow_hearing scene input id flow callType

theorem settle_hearing (turn : Turn) (outcome : Outcome) (input : Option String) :
    (turn.hearing input).settle (outcome.hearing input) =
      ((turn.settle outcome).1.hearing input, (turn.settle outcome).2) := by
  obtain ⟨scene, next⟩ := outcome
  match next with
  | .error e => rfl
  | .ok .proceed => rfl
  | .ok .await => rfl
  | .ok .leave => rfl
  | .ok (.enter frame) => rfl
  | .ok (.restart none) => rfl
  | .ok (.restart (some flow)) => rfl

theorem resume_hearing (engine : Engine) (turn : Turn) (input : Option String) :
    (turn.hearing input).resume engine =
      ((turn.resume engine).1.hearing input, (turn.resume engine).2) := by
  have hsession : (turn.hearing input).session = turn.session := rfl
  unfold resume
  rw [hsession]
  cases turn.session.levels.leave with
  | error e => rfl
  | ok left =>
      obtain ⟨levels, frames⟩ := left
      simp only
      cases levels.top? <;> rfl

theorem runStep_hearing (engine : Engine) (turn : Turn) {frame : Frame} {step : Step}
    (hready : step.kind = .ask → frame.pendingVariable = none) (input : Option String) :
    (turn.hearing input).runStep engine frame step =
      ((turn.runStep engine frame step).1.hearing input, (turn.runStep engine frame step).2) := by
  have hsession : (turn.hearing input).session = turn.session := rfl
  unfold runStep
  rw [hsession]
  cases turn.session.scopes.get? frame.scope with
  | none => rfl
  | some vars =>
      have hperform := perform_hearing (turn.stage engine) (turn.scene frame vars) hready input
      exact (congrArg (turn.hearing input).settle hperform).trans (settle_hearing turn _ input)

/-- In a round in which the frame that runs does not wait, the input has no part. -/
theorem step_hearing (engine : Engine) (turn : Turn)
    (hready : ∀ frame ∈ turn.session.levels.top?, frame.pendingVariable = none)
    (input : Option String) :
    (turn.hearing input).step engine =
      ((turn.step engine).1.hearing input, (turn.step engine).2) := by
  have hsession : (turn.hearing input).session = turn.session := rfl
  unfold step
  rw [hsession]
  cases htop : turn.session.levels.top? with
  | none =>
      simp only
      split
      · rfl
      · exact resume_hearing engine turn input
  | some frame =>
      simp only
      by_cases hlimit : engine.settings.maxSteps < turn.taken + 1
      · have hcharged : engine.settings.maxSteps < (turn.hearing input).taken + 1 := hlimit
        simp only [hlimit, hcharged, if_true]
        rfl
      · have hcharged : ¬engine.settings.maxSteps < (turn.hearing input).taken + 1 := hlimit
        simp only [hlimit, hcharged, if_false]
        cases frame.steps with
        | nil =>
            unfold finishFrame
            simp only
            cases frame.transaction.ifOpen Transaction.complete <;> rfl
        | cons step rest =>
            exact runStep_hearing engine turn.charged (fun _ => hready frame htop) input

end Turn

end Parley
