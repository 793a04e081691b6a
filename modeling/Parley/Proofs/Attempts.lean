import Mathlib
import Parley.Proofs.Resumptions
import Parley.Proofs.Tasks

/-!
# Attempts of a call

A step that calls a tool makes one attempt in each round.  As long as the attempts
fail and the settings allow another one, the step takes its own place with a higher
count of retries, so that all attempts are made in consecutive rounds of one turn.
What one attempt does is told once; what all of them do together follows by
induction on the retries that are left.
-/

set_option autoImplicit false

namespace Parley

namespace ToolCall

/-- The count of retries at which a call is not tried again. -/
def limit (settings : Settings) (call : ToolCall) : Nat :=
  (call.retry.bind RetryPolicy.maxRetries).getD settings.maxRetries

/-- How many retries are left. -/
def allowance (settings : Settings) (call : ToolCall) : Nat :=
  call.limit settings - call.retryCount

/-- The call with one more retry counted. -/
def again (call : ToolCall) : ToolCall :=
  { call with retryCount := call.retryCount + 1 }

/-- What is to be done about a failure of the call in a flow. -/
def actionOn (call : ToolCall) (flow : String) (failure : ToolFailure) : FailureAction :=
  .decide failure.category call.tool flow

/-- The status under which an attempt in a flow is recorded. -/
def status (settings : Settings) (call : ToolCall) (flow : String) :
    Except ToolFailure Json → StepStatus
  | .ok _ => .success
  | .error failure =>
    if call.actionOn flow failure = .retry ∧ call.retryCount < call.limit settings then .retrying
    else .failed

/-- The status under which the last attempt is recorded. -/
def verdict : Except ToolFailure Json → StepStatus
  | .ok _ => .success
  | .error _ => .failed

/-- The steps after an attempt of the given status, where `rest` follows the call. -/
def stepsAfter (id : String) (call : ToolCall) (onFail : Option Step) (rest : List Step) :
    StepStatus → List Step
  | .success => rest
  | .retrying => .callTool id call.again onFail :: rest
  | .failed => onFail.toList ++ rest

variable {settings : Settings} {call : ToolCall} {flow : String} {failure : ToolFailure}
  {result : Except ToolFailure Json}

theorem status_eq_retrying :
    call.status settings flow result = .retrying ↔
      ∃ failure, result = .error failure ∧ call.actionOn flow failure = .retry ∧
        call.retryCount < call.limit settings := by
  cases result with
  | ok value => simp [status]
  | error failure =>
      by_cases hagain : call.actionOn flow failure = .retry ∧ call.retryCount < call.limit settings
      · simp [status, hagain]
      · simp [status, hagain]

theorem status_of_final (h : call.status settings flow result ≠ .retrying) :
    call.status settings flow result = verdict result := by
  cases result with
  | ok value => rfl
  | error failure =>
      by_cases hagain : call.actionOn flow failure = .retry ∧ call.retryCount < call.limit settings
      · exact absurd (if_pos hagain) h
      · exact if_neg hagain

/-- The retry settings of a call decide as its status tells. -/
theorem decide_cases (settings : Settings) (call : ToolCall) (flow : String)
    (failure : ToolFailure) :
    (∃ delay, RetryPolicy.decide call.retry settings.retryDefaults call.retryCount
        (call.actionOn flow failure) = .retry delay ∧
      call.status settings flow (.error failure) = .retrying) ∨
    RetryPolicy.decide call.retry settings.retryDefaults call.retryCount
        (call.actionOn flow failure) = .giveUp ∧
      call.status settings flow (.error failure) = .failed := by
  cases haction : call.actionOn flow failure with
  | cancel => exact .inr ⟨rfl, by simp [status, haction]⟩
  | retry =>
      by_cases hless : call.retryCount < call.limit settings
      · have hroom : ¬(call.retry.bind RetryPolicy.maxRetries).getD
            settings.retryDefaults.maxRetries ≤ call.retryCount := Nat.not_le.2 hless
        refine .inl ?_
        cases hretry : call.retry with
        | none =>
            rw [hretry] at hroom
            simp only [RetryPolicy.decide, if_neg hroom]
            exact ⟨_, rfl, by simp [status, haction, hless]⟩
        | some policy =>
            rw [hretry] at hroom
            simp only [RetryPolicy.decide, if_neg hroom]
            exact ⟨_, rfl, by simp [status, haction, hless]⟩
      · have hfull : (call.retry.bind RetryPolicy.maxRetries).getD
            settings.retryDefaults.maxRetries ≤ call.retryCount := Nat.le_of_not_lt hless
        refine .inr ⟨?_, by simp [status, hless]⟩
        simp only [RetryPolicy.decide, if_pos hfull]

/-- Only transient failures may be tried again, and none where money is involved. -/
theorem actionOn_eq_retry (h : call.actionOn flow failure = .retry) :
    isFinancial call.tool = false ∧ isFinancial flow = false ∧
      failure.category.isTransient = true := by
  unfold actionOn FailureAction.decide at h
  split at h
  · cases h
  · rename_i hmoney
    split at h
    · rename_i htransient
      simpa [htransient] using hmoney
    · cases h

end ToolCall

/-! ## One attempt -/

/-- Storing a value changes nothing but the variables. -/
theorem Scene.storeIn_eq (scene : Scene) (name : Option String) (value : Json) :
    ∃ vars, scene.storeIn name value = { scene with vars := vars } := by
  cases name with
  | none => exact ⟨scene.vars, rfl⟩
  | some name => exact ⟨_, rfl⟩

namespace Stage

variable {stage : Stage} {id : String} {call : ToolCall} {onFail : Option Step} {tool : Tool}
  {scene : Scene}

/-- What becomes of a call after an attempt of it. -/
def callConcluded (stage : Stage) (id : String) (call : ToolCall) (onFail : Option Step)
    (tool : Tool) (scene : Scene) : Except ToolFailure Json → Outcome
  | .ok result => callSucceeded id call tool result scene
  | .error failure => stage.callFailed id call onFail failure scene

theorem callTool_eq (htool : stage.engine.registry.get? call.tool = some tool) :
    stage.callTool id call onFail scene =
      stage.callConcluded id call onFail tool
        { scene with journal := (stage.attempt call tool scene).1 }
        (stage.attempt call tool scene).2 := by
  simp only [callTool, htool]
  rcases hattempt : stage.attempt call tool scene with ⟨journal, result⟩
  cases result <;> rfl

/-- An attempt invokes the tool once, unless the model has found no arguments for it. -/
theorem attempt_invoked (stage : Stage) (call : ToolCall) (tool : Tool) (scene : Scene) :
    (∃ args, (stage.attempt call tool scene).1.invoked =
        scene.journal.invoked ++ [⟨tool.name, args, stage.userId⟩]) ∨
      (stage.attempt call tool scene).1.invoked = scene.journal.invoked ∧
        ∃ reason, (stage.attempt call tool scene).2 =
          .error (.plain .toolCallGeneration reason) := by
  have hasked : ∀ question, (stage.engine.ask scene.journal question).1.invoked =
      scene.journal.invoked := fun _ => rfl
  have hinvoked : ∀ (journal : Journal) (args : Json),
      (stage.engine.invoke journal tool args stage.userId).1.invoked =
        journal.invoked ++ [⟨tool.name, args, stage.userId⟩] := fun _ _ => rfl
  have hargs : (stage.argumentsOf call tool scene).1.invoked = scene.journal.invoked ∧
      ∀ failure, (stage.argumentsOf call tool scene).2 = .error failure →
        ∃ reason, failure = .plain .toolCallGeneration reason := by
    unfold argumentsOf inferArguments
    cases call.args with
    | some args => exact ⟨rfl, nofun⟩
    | none =>
        simp only
        split
        · refine ⟨hasked _, fun failure hfailure => ?_⟩
          simp only at hfailure
          unfold argumentsIn at hfailure
          split at hfailure
          · cases hfailure
            exact ⟨_, rfl⟩
          · split at hfailure
            · cases hfailure
            · cases hfailure
              exact ⟨_, rfl⟩
        · exact ⟨rfl, nofun⟩
  unfold attempt
  rcases hfound : stage.argumentsOf call tool scene with ⟨journal, result⟩
  rw [hfound] at hargs
  obtain ⟨hsame, hreason⟩ := hargs
  cases result with
  | ok args =>
      refine .inl ⟨args, ?_⟩
      rw [← hsame]
      exact hinvoked journal args
  | error failure =>
      obtain ⟨reason, rfl⟩ := hreason failure rfl
      exact .inr ⟨hsame, reason, rfl⟩

/-- What an attempt makes of a scene: the frame has one record more, its next steps are those that the
status of the attempt demands, and it is left if the attempt was the last one and nothing handles its
failure. -/
structure Attempted (stage : Stage) (id : String) (call : ToolCall) (onFail : Option Step)
    (scene : Scene) (status : StepStatus) (outcome : Outcome) : Prop where
  flow : outcome.scene.frame.flowName = scene.frame.flowName
  steps : outcome.scene.frame.steps = call.stepsAfter id onFail scene.frame.steps.tail status
  recorded : ∃ record, outcome.scene.frame.transaction =
      scene.frame.transaction.withRecords [record] ∧
    record.stepId = id ∧ record.stepType = StepKind.callTool.name ∧ record.status = status ∧
    record.retryCount = call.retryCount
  invoked : outcome.scene.journal.invoked = scene.journal.invoked
  next : outcome.next =
    .ok (if status = .failed ∧ onFail.isNone = true then .leave else .proceed)

theorem callAgain_attempted (hactive : scene.frame.transaction.state = .active)
    (failure : ToolFailure) (delay : Nat) :
    Attempted stage id call onFail scene .retrying
      (callAgain id call onFail failure delay scene) := by
  rw [callAgain, Scene.logged_of_active hactive]
  exact ⟨rfl, rfl, ⟨_, rfl, rfl, rfl, rfl, rfl⟩, rfl, rfl⟩

theorem callGivenUp_attempted (hactive : scene.frame.transaction.state = .active)
    (failure : ToolFailure) :
    Attempted stage id call onFail scene .failed
      (stage.callGivenUp id call onFail failure scene) := by
  rw [callGivenUp, Scene.logged_of_active hactive]
  obtain ⟨vars, hstored⟩ :=
    (scene.logging (failedRecord id call failure .failed)).storeIn_eq call.target
      (.str ("Error: " ++ failure.message))
  simp only [hstored]
  cases onFail with
  | none => exact ⟨rfl, rfl, ⟨_, rfl, rfl, rfl, rfl, rfl⟩, rfl, rfl⟩
  | some handler => exact ⟨rfl, rfl, ⟨_, rfl, rfl, rfl, rfl, rfl⟩, rfl, rfl⟩

theorem callSucceeded_attempted (hactive : scene.frame.transaction.state = .active)
    (tool : Tool) (result : Json) :
    Attempted stage id call onFail scene .success (callSucceeded id call tool result scene) := by
  obtain ⟨vars, hstored⟩ := scene.storeIn_eq call.target result
  have hready : ({ scene with vars := vars }.popStep.withFrame
      ({ scene with vars := vars }.popStep.frame.record (.tool
        (tool.name ++ ": " ++ (Redaction.value result).text)))).frame.transaction.state =
      .active := hactive
  simp only [callSucceeded, hstored, Scene.logged_of_active hready]
  exact ⟨rfl, rfl, ⟨_, rfl, rfl, rfl, rfl, rfl⟩, rfl, rfl⟩

/-- Whatever comes of an attempt, it is recorded under its status. -/
theorem callConcluded_attempted (hactive : scene.frame.transaction.state = .active)
    (tool : Tool) (result : Except ToolFailure Json) :
    Attempted stage id call onFail scene
      (call.status stage.engine.settings scene.frame.flowName result)
      (stage.callConcluded id call onFail tool scene result) := by
  cases result with
  | ok value => exact callSucceeded_attempted hactive tool value
  | error failure =>
      show Attempted _ _ _ _ _ _ (stage.callFailed id call onFail failure scene)
      rcases call.decide_cases stage.engine.settings scene.frame.flowName failure with
        ⟨delay, hdecision, hstatus⟩ | ⟨hdecision, hstatus⟩
      · unfold ToolCall.actionOn at hdecision
        simp only [callFailed, hdecision, hstatus]
        exact callAgain_attempted hactive failure delay
      · unfold ToolCall.actionOn at hdecision
        simp only [callFailed, hdecision, hstatus]
        exact callGivenUp_attempted hactive failure

end Stage

namespace Turn

/-- The call that is dispatched, with its frame. -/
def Task.call? : Task → Option (Frame × String × ToolCall × Option Step)
  | .dispatch frame (.callTool id call onFail) => some (frame, id, call, onFail)
  | _ => none

theorem Task.call?_eq_some {task : Task} {frame : Frame} {id : String} {call : ToolCall}
    {onFail : Option Step} :
    task.call? = some (frame, id, call, onFail) ↔
      task = .dispatch frame (.callTool id call onFail) := by
  cases task with
  | dispatch other step => cases step <;> simp [call?]
  | _ => simp [call?]

variable {engine : Engine} {id : String} {call : ToolCall} {onFail : Option Step} {tool : Tool}
  {frame left : Frame} {turn next after : Turn} {result : Except ToolFailure Json}

/-- A round makes one attempt of a call: `result` is what comes of it, `left` is the frame after it,
and the turn goes on with `next`. -/
structure Attempt (engine : Engine) (id : String) (onFail : Option Step) (tool : Tool)
    (call : ToolCall) (frame : Frame) (turn : Turn) (result : Except ToolFailure Json)
    (left : Frame) (next : Turn) : Prop where
  task : turn.task engine = .dispatch frame (.callTool id call onFail)
  performed : ∃ vars, turn.session.scopes.get? frame.scope = some vars ∧
    ((turn.charged.stage engine).attempt call tool (turn.charged.scene frame vars)).2 = result ∧
    ((turn.charged.stage engine).callTool id call onFail
      (turn.charged.scene frame vars)).scene.frame = left
  round : turn.round engine = .onward next
  taken : next.taken = turn.taken + 1
  flow : left.flowName = frame.flowName
  steps : left.steps = call.stepsAfter id onFail frame.steps.tail
    (call.status engine.settings frame.flowName result)
  recorded : ∃ record, left.transaction = frame.transaction.withRecords [record] ∧
    record.stepId = id ∧ record.stepType = StepKind.callTool.name ∧
    record.status = call.status engine.settings frame.flowName result ∧
    record.retryCount = call.retryCount
  levels : next.session.levels =
    ⟨(if call.status engine.settings frame.flowName result = .failed ∧ onFail.isNone = true then []
        else [left]) ++ turn.session.levels.current.tail, turn.session.levels.suspended⟩
  invoked : (∃ args, next.journal.invoked =
      turn.journal.invoked ++ [⟨tool.name, args, turn.session.userId⟩]) ∨
    next.journal.invoked = turn.journal.invoked ∧
      ∃ reason, result = .error (.plain .toolCallGeneration reason)

/-- After a step that goes on with its frame or without it, the turn goes on as well. -/
theorem settle_of_next {callers : Level} {suspended : List Level}
    (hlevels : turn.session.levels = ⟨frame :: callers, suspended⟩) {outcome : Outcome}
    {leaves : Prop} [Decidable leaves]
    (hnext : outcome.next = .ok (if leaves then .leave else .proceed)) :
    (turn.settle outcome).2 = .ok .running ∧ (turn.settle outcome).1.taken = turn.taken ∧
      (turn.settle outcome).1.journal = outcome.scene.journal ∧
      (turn.settle outcome).1.session.levels =
        ⟨(if leaves then [] else [outcome.scene.frame]) ++ callers, suspended⟩ := by
  obtain ⟨scene, _⟩ := outcome
  obtain rfl := hnext
  have hadopt := levels_adopt hlevels scene
  by_cases hleaves : leaves
  · simp only [hleaves, if_true]
    exact ⟨rfl, rfl, rfl, by simp [settle, advance, hadopt, Levels.pop]⟩
  · simp only [hleaves, if_false]
    exact ⟨rfl, rfl, rfl, hadopt⟩

/-- A call of a known tool that is dispatched makes an attempt. -/
theorem exists_attempt (horder : turn.session.InOrder)
    (htask : turn.task engine = .dispatch frame (.callTool id call onFail))
    (htool : engine.registry.get? call.tool = some tool) :
    ∃ result left next, Attempt engine id onFail tool call frame turn result left next := by
  obtain ⟨htop, hbudget, rest, hsteps⟩ := task_eq_dispatch.1 htask
  obtain ⟨callers, suspended, hlevels⟩ := Levels.top?_eq_some.1 htop
  have hactive := horder.active_of_top htop
  obtain ⟨vars, hvars⟩ := horder.exists_vars htop
  let stage := turn.charged.stage engine
  let scene := turn.charged.scene frame vars
  let outcome := stage.callTool id call onFail scene
  let result := (stage.attempt call tool scene).2
  have hstep : turn.step engine = turn.charged.settle outcome := by
    have hcharged : turn.charged.session.scopes.get? frame.scope = some vars := hvars
    simp only [step_eq_carried, htask, carried, runStep, hcharged]
    rfl
  have hattempted : Stage.Attempted stage id call onFail
      { scene with journal := (stage.attempt call tool scene).1 }
      (call.status engine.settings frame.flowName result) outcome := by
    have hconcluded : outcome = stage.callConcluded id call onFail tool
        { scene with journal := (stage.attempt call tool scene).1 } result :=
      Stage.callTool_eq htool
    rw [hconcluded]
    exact Stage.callConcluded_attempted hactive tool result
  have hcharged : turn.charged.session.levels = ⟨frame :: callers, suspended⟩ := hlevels
  obtain ⟨hrunning, htaken, hjournal, hafter⟩ := settle_of_next hcharged hattempted.next
  refine ⟨result, outcome.scene.frame, (turn.charged.settle outcome).1, ?_⟩
  constructor
  · exact htask
  · exact ⟨vars, hvars, rfl, rfl⟩
  · unfold round
    rw [hstep]
    generalize turn.charged.settle outcome = settled at hrunning
    obtain ⟨next, progress⟩ := settled
    obtain rfl := hrunning
    rfl
  · exact htaken
  · exact hattempted.flow
  · exact hattempted.steps
  · exact hattempted.recorded
  · rw [hafter, hlevels]
    rfl
  · rw [hjournal, hattempted.invoked]
    exact stage.attempt_invoked call tool scene

/-! ## All attempts of a call -/

/-- The turn to which a round leads begins a round of the same run. -/
theorem Runs.mem_next {opened final : Turn} {trail : List Turn}
    (hrun : Runs engine opened trail final) (hturn : turn ∈ trail)
    (hround : turn.round engine = .onward next) : next ∈ trail :=
  (hrun.followed hturn hround).subset (by simp)

/-- The attempts of a call, each in the round after the one before: some fail and are tried again,
and the last one is not. -/
inductive Tries (engine : Engine) (id : String) (onFail : Option Step) (tool : Tool) :
    ToolCall → Frame → Turn → List ToolFailure → Except ToolFailure Json → Frame → Turn → Prop where
  | last {call : ToolCall} {frame left : Frame} {turn after : Turn}
      {result : Except ToolFailure Json}
      (hattempt : Attempt engine id onFail tool call frame turn result left after)
      (hfinal : call.status engine.settings frame.flowName result ≠ .retrying) :
      Tries engine id onFail tool call frame turn [] result left after
  | more {call : ToolCall} {frame between left : Frame} {turn next after : Turn}
      {failure : ToolFailure} {failures : List ToolFailure} {result : Except ToolFailure Json}
      (hattempt : Attempt engine id onFail tool call frame turn (.error failure) between next)
      (hagain : call.status engine.settings frame.flowName (.error failure) = .retrying)
      (hrest : Tries engine id onFail tool call.again between next failures result left after) :
      Tries engine id onFail tool call frame turn (failure :: failures) result left after

/-- An attempt that is followed by another one leaves the call with a higher count on top. -/
theorem Attempt.again (h : Attempt engine id onFail tool call frame turn result left next)
    (hagain : call.status engine.settings frame.flowName result = .retrying) :
    left.steps = .callTool id call.again onFail :: frame.steps.tail ∧
      next.session.levels = turn.session.levels.modifyTop fun _ => left := by
  obtain ⟨htop, -⟩ := task_eq_dispatch.1 h.task
  obtain ⟨callers, suspended, hlevels⟩ := Levels.top?_eq_some.1 htop
  have hsteps := h.steps
  have hafter := h.levels
  rw [hagain] at hsteps hafter
  refine ⟨hsteps, ?_⟩
  rw [hafter, hlevels]
  rfl

/-- With a step for each retry that is left, a call of a known tool makes all its attempts. -/
theorem exists_tries (horder : turn.session.InOrder)
    (htask : turn.task engine = .dispatch frame (.callTool id call onFail))
    (htool : engine.registry.get? call.tool = some tool)
    (hbudget : turn.taken + call.allowance engine.settings < engine.settings.maxSteps) :
    ∃ failures last left after,
      Tries engine id onFail tool call frame turn failures last left after := by
  induction hleft : call.allowance engine.settings generalizing call frame turn with
  | zero =>
      obtain ⟨result, left, next, hattempt⟩ := exists_attempt horder htask htool
      refine ⟨[], result, left, next, .last hattempt fun hagain => ?_⟩
      obtain ⟨failure, -, -, hless⟩ := ToolCall.status_eq_retrying.1 hagain
      unfold ToolCall.allowance at hleft
      omega
  | succ allowance ih =>
      obtain ⟨result, left, next, hattempt⟩ := exists_attempt horder htask htool
      by_cases hagain : call.status engine.settings frame.flowName result = .retrying
      · obtain ⟨failure, rfl, -, hless⟩ := ToolCall.status_eq_retrying.1 hagain
        obtain ⟨hsteps, hlevels⟩ := hattempt.again hagain
        have hallowance : call.again.allowance engine.settings = allowance := by
          have hlimit : call.again.limit engine.settings = call.limit engine.settings := rfl
          have hcount : call.again.retryCount = call.retryCount + 1 := rfl
          unfold ToolCall.allowance at hleft ⊢
          omega
        have hnext : next.task engine = .dispatch left (.callTool id call.again onFail) := by
          obtain ⟨htop, hmax, -⟩ := task_eq_dispatch.1 htask
          obtain ⟨callers, suspended, hbefore⟩ := Levels.top?_eq_some.1 htop
          have htaken := hattempt.taken
          refine task_eq_dispatch.2 ⟨by rw [hlevels, hbefore]; rfl, by omega, _, hsteps⟩
        have hroom : next.taken + call.again.allowance engine.settings <
            engine.settings.maxSteps := by
          have htaken := hattempt.taken
          omega
        obtain ⟨failures, last, final, after, hrest⟩ :=
          ih (round_inOrder horder hattempt.round) hnext htool hroom hallowance
        exact ⟨failure :: failures, last, final, after, .more hattempt hagain hrest⟩
      · exact ⟨[], result, left, next, .last hattempt hagain⟩

namespace Tries

variable {failures : List ToolFailure} {last : Except ToolFailure Json}

theorem task (h : Tries engine id onFail tool call frame turn failures last left after) :
    turn.task engine = .dispatch frame (.callTool id call onFail) := by
  cases h with
  | last hattempt hfinal => exact hattempt.task
  | more hattempt hagain hrest => exact hattempt.task

/-- The flow of the frame stays the same. -/
theorem flow (h : Tries engine id onFail tool call frame turn failures last left after) :
    left.flowName = frame.flowName := by
  induction h with
  | last hattempt hfinal => exact hattempt.flow
  | more hattempt hagain hrest ih => exact ih.trans hattempt.flow

/-- Every attempt takes one step. -/
theorem taken (h : Tries engine id onFail tool call frame turn failures last left after) :
    after.taken = turn.taken + (failures.length + 1) := by
  induction h with
  | last hattempt hfinal => exact hattempt.taken
  | more hattempt hagain hrest ih =>
      have htaken := hattempt.taken
      rw [List.length_cons]
      omega

/-- What a call is tried again after may be tried again. -/
theorem retried (h : Tries engine id onFail tool call frame turn failures last left after) :
    ∀ failure ∈ failures, call.actionOn frame.flowName failure = .retry := by
  induction h with
  | last hattempt hfinal => exact nofun
  | @more call frame between left turn next after failure failures result hattempt hagain hrest ih =>
      intro other hother
      rcases List.mem_cons.1 hother with rfl | hlater
      · obtain ⟨_, hsame, haction, -⟩ := ToolCall.status_eq_retrying.1 hagain
        cases hsame
        exact haction
      · rw [← hattempt.flow]
        exact ih other hlater

/-- A call is not tried again more often than its settings allow. -/
theorem length_le (h : Tries engine id onFail tool call frame turn failures last left after) :
    failures.length ≤ call.allowance engine.settings := by
  induction h with
  | last hattempt hfinal => exact Nat.zero_le _
  | @more call frame between left turn next after failure failures result hattempt hagain hrest ih =>
      obtain ⟨-, -, -, hless⟩ := ToolCall.status_eq_retrying.1 hagain
      have hlimit : call.again.limit engine.settings = call.limit engine.settings := rfl
      have hcount : call.again.retryCount = call.retryCount + 1 := rfl
      unfold ToolCall.allowance at ih ⊢
      rw [List.length_cons]
      omega

/-- A last failure that may be tried again has used up the settings. -/
theorem length_of_retry (h : Tries engine id onFail tool call frame turn failures last left after) :
    ∀ failure, last = .error failure → call.actionOn frame.flowName failure = .retry →
      failures.length = call.allowance engine.settings := by
  induction h with
  | @last call frame left turn after result hattempt hfinal =>
      intro failure hlast haction
      have hfull : ¬call.retryCount < call.limit engine.settings := fun hless =>
        hfinal (ToolCall.status_eq_retrying.2 ⟨failure, hlast, haction, hless⟩)
      unfold ToolCall.allowance
      rw [List.length_nil]
      omega
  | @more call frame between left turn next after failure failures result hattempt hagain hrest ih =>
      intro other hlast haction
      obtain ⟨-, -, -, hless⟩ := ToolCall.status_eq_retrying.1 hagain
      have hlength := ih other hlast (hattempt.flow ▸ haction)
      have hlimit : call.again.limit engine.settings = call.limit engine.settings := rfl
      have hcount : call.again.retryCount = call.retryCount + 1 := rfl
      unfold ToolCall.allowance at hlength ⊢
      rw [List.length_cons]
      omega

/-- The turns that the attempts begin in belong to the turn in which the first of them does. -/
theorem mem_trail (h : Tries engine id onFail tool call frame turn failures last left after)
    {opened final : Turn} {trail : List Turn} (hrun : Runs engine opened trail final)
    (hturn : turn ∈ trail) : after ∈ trail := by
  induction h with
  | last hattempt hfinal => exact hrun.mem_next hturn hattempt.round
  | more hattempt hagain hrest ih => exact ih (hrun.mem_next hturn hattempt.round)

/-- The tool is invoked once for each attempt, or once less if the model finds no arguments for the
last one. -/
theorem invoked (h : Tries engine id onFail tool call frame turn failures last left after) :
    ∃ made, after.journal.invoked = turn.journal.invoked ++ made ∧
      (∀ invocation ∈ made, invocation.tool = tool.name) ∧
      (made.length = failures.length + 1 ∨ made.length = failures.length ∧
        ∃ reason, last = .error (.plain .toolCallGeneration reason)) := by
  induction h with
  | @last call frame left turn after result hattempt hfinal =>
      rcases hattempt.invoked with ⟨args, hmade⟩ | ⟨hnone, hreason⟩
      · exact ⟨[⟨tool.name, args, turn.session.userId⟩], hmade, by simp, .inl rfl⟩
      · exact ⟨[], by simpa using hnone, nofun, .inr ⟨rfl, hreason⟩⟩
  | @more call frame between left turn next after failure failures result hattempt hagain hrest ih =>
      obtain ⟨made, hlater, htools, hlength⟩ := ih
      rcases hattempt.invoked with ⟨args, hmade⟩ | ⟨-, reason, hreason⟩
      · refine ⟨⟨tool.name, args, turn.session.userId⟩ :: made, ?_, ?_, ?_⟩
        · rw [hlater, hmade, List.append_assoc]
          rfl
        · simpa using htools
        · simpa using hlength
      · -- a call without arguments would not have been tried again
        obtain ⟨failure', hsame, haction, -⟩ := ToolCall.status_eq_retrying.1 hagain
        rw [hreason] at hsame
        cases hsame
        have htransient := (ToolCall.actionOn_eq_retry haction).2.2
        cases htransient

/-- The transaction of the frame takes one record for each attempt, with the retries counted. -/
theorem recorded (h : Tries engine id onFail tool call frame turn failures last left after) :
    ∃ records, left.transaction = frame.transaction.withRecords records ∧
      (∀ record ∈ records, record.stepId = id ∧ record.stepType = StepKind.callTool.name) ∧
      records.map StepRecord.status =
        List.replicate failures.length .retrying ++ [ToolCall.verdict last] ∧
      records.map StepRecord.retryCount =
        List.range' call.retryCount (failures.length + 1) := by
  induction h with
  | @last call frame left turn after result hattempt hfinal =>
      obtain ⟨record, hrecorded, hid, hkind, hstatus, hcount⟩ := hattempt.recorded
      refine ⟨[record], hrecorded, by simp [hid, hkind], ?_, by simp [hcount]⟩
      simp [hstatus, ToolCall.status_of_final hfinal]
  | @more call frame between left turn next after failure failures result hattempt hagain hrest ih =>
      obtain ⟨record, hrecorded, hid, hkind, hstatus, hcount⟩ := hattempt.recorded
      obtain ⟨records, hlater, hkinds, hstatuses, hcounts⟩ := ih
      refine ⟨record :: records, ?_, ?_, ?_, ?_⟩
      · rw [hlater, hrecorded, Transaction.withRecords_withRecords]
        rfl
      · simpa [hid, hkind] using hkinds
      · simp [hstatus, hagain, hstatuses, List.replicate_succ]
      · rw [List.map_cons, hcounts, hcount, List.length_cons]
        exact List.range'_succ.symm

/-- After the attempts the frame goes on with the steps that follow the call, with the handler of the
failure, or not at all. -/
theorem concluded (h : Tries engine id onFail tool call frame turn failures last left after) :
    left.steps = call.stepsAfter id onFail frame.steps.tail (ToolCall.verdict last) ∧
      after.session.levels =
        ⟨(if ToolCall.verdict last = .failed ∧ onFail.isNone = true then [] else [left]) ++
          turn.session.levels.current.tail, turn.session.levels.suspended⟩ := by
  induction h with
  | @last call frame left turn after result hattempt hfinal =>
      have hsteps := hattempt.steps
      have hlevels := hattempt.levels
      rw [ToolCall.status_of_final hfinal] at hsteps hlevels
      exact ⟨hsteps, hlevels⟩
  | @more call frame between left turn next after failure failures result hattempt hagain hrest ih =>
      obtain ⟨hsteps, hlevels⟩ := ih
      obtain ⟨hbetween, hnext⟩ := hattempt.again hagain
      rw [hbetween] at hsteps
      rw [hnext, Levels.modifyTop_eq] at hlevels
      refine ⟨?_, ?_⟩
      · rw [hsteps]
        cases result <;> rfl
      · rw [hlevels]
        cases turn.session.levels.current <;> rfl

end Tries

/-- The course of a call: `failures` are those that it was tried again after, `last` is what came of
the last attempt, `made` are the invocations of the tool, `records` those of the attempts, and `left`
is the frame after them. -/
structure CallCourse (engine : Engine) (id : String) (onFail : Option Step) (tool : Tool)
    (call : ToolCall) (frame : Frame) (turn : Turn) (failures : List ToolFailure)
    (last : Except ToolFailure Json) (made : List Invocation) (records : List StepRecord)
    (left : Frame) (after : Turn) : Prop where
  tries : Tries engine id onFail tool call frame turn failures last left after
  /-- The first success is the last attempt, and so is the first failure that is final. -/
  retried : ∀ failure ∈ failures, call.actionOn frame.flowName failure = .retry
  bounded : failures.length ≤ call.allowance engine.settings
  invoked : after.journal.invoked = turn.journal.invoked ++ made
  tools : ∀ invocation ∈ made, invocation.tool = tool.name
  made_le : made.length ≤ failures.length + 1
  /-- A call that could be tried again but is not has been made as often as it may be. -/
  exhausted : ∀ failure, last = .error failure → call.actionOn frame.flowName failure = .retry →
    made.length = call.allowance engine.settings + 1
  recorded : left.transaction = frame.transaction.withRecords records
  kinds : ∀ record ∈ records, record.stepId = id ∧ record.stepType = StepKind.callTool.name
  statuses : records.map StepRecord.status =
    List.replicate failures.length .retrying ++ [ToolCall.verdict last]
  counts : records.map StepRecord.retryCount = List.range' call.retryCount (failures.length + 1)
  counted : ∀ record ∈ records,
    record.retryCount ≤ max call.retryCount (call.limit engine.settings)
  succeeded : ∀ value, last = .ok value → left.steps = frame.steps.tail ∧
    after.session.levels = turn.session.levels.modifyTop fun _ => left
  handled : ∀ failure handler, last = .error failure → onFail = some handler →
    left.steps = handler :: frame.steps.tail ∧
      after.session.levels = turn.session.levels.modifyTop fun _ => left
  abandoned : ∀ failure, last = .error failure → onFail = none →
    after.session.levels = turn.session.levels.pop.1

theorem Tries.course {failures : List ToolFailure} {last : Except ToolFailure Json}
    (h : Tries engine id onFail tool call frame turn failures last left after) :
    ∃ made records, CallCourse engine id onFail tool call frame turn failures last made records
      left after := by
  obtain ⟨made, hmade, htools, hlength⟩ := h.invoked
  obtain ⟨records, hrecorded, hkinds, hstatuses, hcounts⟩ := h.recorded
  obtain ⟨hsteps, hlevels⟩ := h.concluded
  have hbounded := h.length_le
  have hstays : ToolCall.verdict last = .success ∨ onFail.isNone = false →
      after.session.levels = turn.session.levels.modifyTop fun _ => left := by
    intro hstays
    have hnot : ¬(ToolCall.verdict last = .failed ∧ onFail.isNone = true) := by
      rcases hstays with hsuccess | hhandler
      · simp [hsuccess]
      · simp [hhandler]
    obtain ⟨htop, -⟩ := task_eq_dispatch.1 h.task
    obtain ⟨callers, suspended, hbefore⟩ := Levels.top?_eq_some.1 htop
    rw [hlevels, if_neg hnot, hbefore]
    rfl
  refine ⟨made, records, ?_⟩
  constructor
  · exact h
  · exact h.retried
  · exact hbounded
  · exact hmade
  · exact htools
  · omega
  · intro failure hlast haction
    have hfull := h.length_of_retry failure hlast haction
    rcases hlength with hall | ⟨-, reason, hreason⟩
    · omega
    · rw [hlast] at hreason
      cases hreason
      have htransient := (ToolCall.actionOn_eq_retry haction).2.2
      cases htransient
  · exact hrecorded
  · exact hkinds
  · exact hstatuses
  · exact hcounts
  · intro record hrecord
    have hcount : record.retryCount ∈ List.range' call.retryCount (failures.length + 1) := by
      rw [← hcounts]
      exact List.mem_map_of_mem hrecord
    rw [List.mem_range'_1] at hcount
    unfold ToolCall.allowance at hbounded
    omega
  · rintro value rfl
    exact ⟨hsteps, hstays (.inl rfl)⟩
  · rintro failure handler rfl rfl
    exact ⟨hsteps, hstays (.inr rfl)⟩
  · rintro failure rfl rfl
    exact hlevels

end Turn

namespace Engine

variable {engine : Engine} {session : Session} {exchange : Exchange} {turn : Turn} {frame : Frame}
  {id : String} {call : ToolCall} {onFail : Option Step} {tool : Tool}

/-- The attempts that begin in an exchange end in it. -/
theorem mem_trail_of_tries {failures : List ToolFailure} {last : Except ToolFailure Json}
    {left : Frame} {after : Turn} (hturn : turn ∈ engine.trail session exchange)
    (htries : Turn.Tries engine id onFail tool call frame turn failures last left after) :
    after ∈ engine.trail session exchange := by
  obtain ⟨opened, -, -, htrail⟩ := running_of_trail hturn
  rw [htrail] at hturn ⊢
  exact htries.mem_trail (Turn.runs_drive engine opened) hturn

/-- A call of a known tool for whose retries the budget has room makes all its attempts in one turn:
the first success ends them, and so does the first failure that is final; if neither comes, the tool
is invoked once more than there are retries left.  Each attempt has a record, with the retries
counted from those that the call began with, and no count goes beyond this number and the limit, so
that it fits into a word if they do.  After the last attempt the frame goes on with the steps that
follow the call or with the handler of the failure, or this one frame is left. -/
theorem calls_within_bound (h : engine.Reachable session)
    (hturn : turn ∈ engine.trail session exchange)
    (htask : turn.task engine = .dispatch frame (.callTool id call onFail))
    (htool : engine.registry.get? call.tool = some tool)
    (hbudget : turn.taken + call.allowance engine.settings < engine.settings.maxSteps) :
    ∃ failures last made records left after,
      Turn.CallCourse engine id onFail tool call frame turn failures last made records left after ∧
      after ∈ engine.trail session exchange ∧ made.length ≤ call.allowance engine.settings + 1 ∧
      (call.retryCount < 2 ^ 32 → call.limit engine.settings < 2 ^ 32 →
        ∀ record ∈ records, record.retryCount < 2 ^ 32) := by
  have horder := trail_inOrder h.inOrder exchange hturn
  obtain ⟨failures, last, left, after, htries⟩ := Turn.exists_tries horder htask htool hbudget
  obtain ⟨made, records, hcourse⟩ := htries.course
  refine ⟨failures, last, made, records, left, after, hcourse, mem_trail_of_tries hturn htries,
    ?_, ?_⟩
  · exact Nat.le_trans hcourse.made_le (Nat.succ_le_succ hcourse.bounded)
  · intro hcount hlimit record hrecord
    have hcounted := hcourse.counted record hrecord
    omega

end Engine

namespace Kiosk

/-- A tool that takes money. -/
def cashier : Tool where
  id := "t-1"
  name := "process_payment"
  description := ""
  parameters := .null
  implementation := .empty
  timeout := none

/-- A flow that does nothing but to call the tool of this name or id. -/
def purchase (name tool : String) : Definition where
  id := ""
  name := name
  description := ""
  version := ""
  steps := [.callTool "pay" ⟨tool, some (.obj []), none, none, 0⟩ none]
  vars := []
  metadata := .empty

/-- An engine with such a flow and with a network that is down for the first invocation. -/
def till (name tool : String) : Engine :=
  { engine with
    library := stocked [purchase name tool]
    registry := ⟨[("process_payment", cashier)]⟩
    invoker := fun journal _ _ =>
      if journal.invoked.isEmpty then .now (.error (.plain .network "down")) else .now (.ok .null) }

/-- The network is down for the first attempt, and the call has room to be tried again. -/
theorem purchase_tried :
    ∃ turn frame id call onFail failures last made records left after,
      turn ∈ (till "Shop" "t-1").trail ((till "Shop" "t-1").startSession "guest" "kiosk")
        (guest "Shop") ∧
      Turn.CallCourse (till "Shop" "t-1") id onFail cashier call frame turn failures last made
        records left after ∧ made.length ≤ call.allowance (till "Shop" "t-1").settings + 1 := by
  have hcalls : (((till "Shop" "t-1").trail
      ((till "Shop" "t-1").startSession "guest" "kiosk") (guest "Shop")).any fun turn =>
        (turn.task (till "Shop" "t-1")).call?.any fun (_, _, call, _) =>
          call.tool = "t-1" && turn.taken + call.allowance (till "Shop" "t-1").settings <
            (till "Shop" "t-1").settings.maxSteps) = true := by decide +kernel
  obtain ⟨turn, hturn, hcall⟩ := List.any_eq_true.1 hcalls
  obtain ⟨⟨frame, id, call, onFail⟩, hdispatched, hroom⟩ := (Option.any_eq_true _ _).1 hcall
  simp only [Bool.and_eq_true, decide_eq_true_eq] at hroom
  obtain ⟨hreference, hbudget⟩ := hroom
  have hfound : (till "Shop" "t-1").registry.get? call.tool = some cashier := by
    rw [hreference]
    rfl
  obtain ⟨failures, last, made, records, left, after, hcourse, -, hbound, -⟩ :=
    Engine.calls_within_bound (.start "guest" "kiosk") hturn
      (Turn.Task.call?_eq_some.1 hdispatched) hfound hbudget
  exact ⟨turn, frame, id, call, onFail, failures, last, made, records, left, after, hturn, hcourse,
    hbound⟩

end Kiosk

end Parley
