import Parley.Proofs.Scenes
import Parley.Proofs.Scopes
import Parley.Turn.Basic

/-!
# What a step can do

A step of a frame whose transaction is active has one of nine effects.  Seven of
them let the frame go on, one hands the frame to another flow, one leaves it as
it was because nothing of it is needed any more, and a step that cannot be
finished leaves it as it was too.  All that is proved about runs goes through
this list, and no handler of a step is opened a second time.
-/

set_option autoImplicit false

namespace Parley

namespace Step

/-- A step can put another one in its place: a branch, the handler of a failure, or itself with a
higher count of retries. -/
inductive Yields : Step → Step → Prop where
  | branch {id subject key : String} {branches : List (String × Step)} {next : Step}
      (hmem : (key, next) ∈ branches) : Yields (.switch id subject branches) next
  | choice {id : String} {guard : Guard} {branches : List (Guard × Step)} {next : Step}
      (hmem : (guard, next) ∈ branches) : Yields (.choose id branches) next
  | retry {id : String} {call : ToolCall} {onFail : Option Step} :
      Yields (.callTool id call onFail)
        (.callTool id { call with retryCount := call.retryCount + 1 } onFail)
  | handler {id : String} {call : ToolCall} {next : Step} :
      Yields (.callTool id call (some next)) next

/-- The step hands its frame to another flow of the library. -/
def Swaps (library : Library) (step : Step) : Prop :=
  ∃ id key flow, step = .callFlow id key .replace ∧ library.get? key = some flow

theorem not_swaps_of_kind {library : Library} {step : Step} (h : step.kind ≠ .callFlow) :
    ¬step.Swaps library := by
  rintro ⟨id, key, flow, rfl, -⟩
  exact h rfl

end Step

/-- The effects of a step in a scene. -/
inductive Effect (stage : Stage) (step : Step) (scene : Scene) : Outcome → Prop where
  /-- The step is done, or another one takes its place. -/
  | proceeded (after : Scene) (pushed : Option Step)
      (hkind : step.kind ≠ .ask)
      (hframe : scene.frame.Continues after.frame)
      (hsteps : after.frame.steps = pushed.toList ++ scene.frame.steps.tail)
      (hpushed : ∀ next ∈ pushed, step.Yields next)
      (hpending : after.frame.pendingVariable = scene.frame.pendingVariable)
      (hinput : after.input = scene.input)
      (hkept : ¬step.Swaps stage.engine.library) :
      Effect stage step scene ⟨after, .ok .proceed⟩
  /-- The frame waited for an answer, and the question takes the input. -/
  | answered (after : Scene) (target input : String)
      (hkind : step.kind = .ask)
      (hwaiting : scene.frame.pendingVariable = some target)
      (hsaid : scene.input = some input)
      (hframe : scene.frame.Continues after.frame)
      (hsteps : after.frame.steps = scene.frame.steps.tail)
      (hpending : after.frame.pendingVariable = none)
      (hvars : after.vars = Table.set target (.str input) scene.vars)
      (hinput : after.input = none) :
      Effect stage step scene ⟨after, .ok .proceed⟩
  /-- The step asks a question and stays the next one until the answer has arrived. -/
  | asked (after : Scene) (id : String) (message : Wording) (target : String)
      (hstep : step = .ask id message (some target))
      (hready : scene.frame.pendingVariable = none ∨ scene.input = none)
      (hframe : scene.frame.Continues after.frame)
      (hsteps : after.frame.steps = scene.frame.steps)
      (hpending : after.frame.pendingVariable = some target)
      (hshown : after.frame.lastMessage = some (stage.wordingIn scene message))
      (hsaid : after.said =
        scene.said ++ [stage.question scene.frame.justResumed (stage.wordingIn scene message)])
      (hvars : after.vars = scene.vars)
      (hinput : after.input = scene.input) :
      Effect stage step scene ⟨after, .ok .await⟩
  /-- The step asks a question whose answer no variable receives, and is done. -/
  | remarked (after : Scene) (id : String) (message : Wording)
      (hstep : step = .ask id message none)
      (hready : scene.frame.pendingVariable = none ∨ scene.input = none)
      (hframe : scene.frame.Continues after.frame)
      (hsteps : after.frame.steps = scene.frame.steps.tail)
      (hpending : after.frame.pendingVariable = scene.frame.pendingVariable)
      (hsaid : after.said =
        scene.said ++ [stage.question scene.frame.justResumed (stage.wordingIn scene message)])
      (hvars : after.vars = scene.vars)
      (hinput : after.input = scene.input) :
      Effect stage step scene ⟨after, .ok .await⟩
  /-- The flow is given up after a tool has failed. -/
  | gaveUp (after : Scene)
      (hkind : step.kind = .callTool)
      (hframe : scene.frame.Continues after.frame)
      (hinput : after.input = scene.input) :
      Effect stage step scene ⟨after, .ok .leave⟩
  /-- The step is done, and a called flow comes on top. -/
  | entered (after : Scene) (flow : Definition) (initiator : String)
      (hkind : step.kind = .callFlow)
      (hroom : stage.depth < stage.engine.settings.maxStackDepth)
      (hframe : scene.frame.Continues after.frame)
      (hsteps : after.frame.steps = scene.frame.steps.tail)
      (hpending : after.frame.pendingVariable = scene.frame.pendingVariable)
      (hinput : after.input = scene.input)
      (htarget : ∃ id key, step = .callFlow id key .call ∧
        stage.engine.library.get? key = some flow) :
      Effect stage step scene
        ⟨after, .ok (.enter
          (.start flow scene.frame.scope (.start flow.name initiator stage.userId)))⟩
  /-- Another flow takes over the frame, and the former transaction is closed. -/
  | replaced (after : Scene) (flow : Definition) (initiator : String) (closed : Transaction)
      (hkind : step.kind = .callFlow)
      (hframe : after.frame =
        { scene.frame.handTo flow (.start flow.name initiator stage.userId) with
          replaced := scene.frame.replaced ++ [closed] })
      (hclosed : closed.state = .failed)
      (hreason : closed.failureReason = some Stage.replacedReason)
      (hinput : after.input = scene.input)
      (htarget : ∃ id key, step = .callFlow id key .replace ∧
        stage.engine.library.get? key = some flow)
      (hrecords : scene.frame.transaction.steps <+: closed.steps) :
      Effect stage step scene ⟨after, .ok .proceed⟩
  /-- All flows end, and a known target starts anew. -/
  | rebooted (after : Scene) (id key : String) (flow : Option Definition)
      (hstep : step = .callFlow id key .reboot)
      (hflow : flow = stage.engine.library.get? key)
      (hframe : after.frame = scene.frame)
      (hinput : after.input = scene.input) :
      Effect stage step scene ⟨after, .ok (.restart flow)⟩
  /-- The step cannot be finished: there is no branch to take, or no room for another frame. -/
  | failed (error : EngineError)
      (hkind : step.kind ≠ .ask)
      (herror : (∃ limit, error = .recursionLimit limit) ∨
        ∃ kind detail, error = .noMatchingBranch kind detail)
      (hkept : ¬step.Swaps stage.engine.library) :
      Effect stage step scene ⟨scene, .error error⟩

/-! ## The branches that can be taken -/

/-- The branch that is taken on a value is one of the step's. -/
theorem branchFor?_mem {value : Json} {branches : List (String × Step)} {next : Step}
    (h : branchFor? value branches = some next) : ∃ key, (key, next) ∈ branches := by
  rcases Option.or_eq_some_iff.1 h with hkeyed | ⟨-, hotherwise⟩
  · obtain ⟨key, -, hkey⟩ := Option.bind_eq_some_iff.1 hkeyed
    unfold keyedBranch? at hkey
    split at hkey
    · cases hkey
    · exact ⟨key, Table.mem_of_get? hkey⟩
  · exact ⟨_, Table.mem_of_get? hotherwise⟩

/-- The branch that is taken on conditions is one of the step's. -/
theorem choiceFor?_mem {holds : String → Bool} {branches : List (Guard × Step)} {next : Step}
    (h : choiceFor? holds branches = some next) : ∃ guard, (guard, next) ∈ branches := by
  obtain ⟨⟨guard, step⟩, hfound, rfl⟩ := Option.map_eq_some_iff.1 h
  rcases Option.or_eq_some_iff.1 hfound with hchosen | ⟨-, hotherwise⟩
  · exact ⟨guard, List.mem_of_find?_eq_some hchosen⟩
  · exact ⟨guard, List.mem_of_find?_eq_some hotherwise⟩

namespace Stage

variable {stage : Stage} {scene : Scene}

/-! ## The handlers -/

theorem say_effect (hactive : scene.frame.transaction.state = .active) (id : String)
    (message : Wording) : Effect stage (.say id message) scene (stage.say id message scene) := by
  rw [Stage.say, Scene.finished_of_active (by simpa [Frame.record] using hactive)]
  refine .proceeded _ none (by simp [Step.kind]) ?_ ?_ (by simp) ?_ (by simp)
    (Step.not_swaps_of_kind (by simp [Step.kind]))
  · exact (((Frame.Continues.refl _).record _).withMessage _).popStep.log _
  · simp [Frame.log, Frame.popStep, Frame.record]
  · simp [Frame.log, Frame.popStep, Frame.record]

theorem answer_effect (hactive : scene.frame.transaction.state = .active) (id : String)
    (message : Wording) (receiver : Option String) {target input : String}
    (hwaiting : scene.frame.pendingVariable = some target) (hsaid : scene.input = some input) :
    Effect stage (.ask id message receiver) scene (answer id target input scene) := by
  rw [answer, Scene.finished_of_active (by simpa using hactive)]
  refine .answered _ target input rfl hwaiting hsaid ?_ ?_ ?_ rfl (by simp)
  · exact ((Frame.Continues.refl _).withPending none).popStep.log _
  · simp [Frame.log, Frame.popStep]
  · simp [Frame.log, Frame.popStep]

theorem prompt_effect (hactive : scene.frame.transaction.state = .active) (id : String)
    (message : Wording) (receiver : Option String)
    (hready : scene.frame.pendingVariable = none ∨ scene.input = none) :
    Effect stage (.ask id message receiver) scene (stage.prompt id message receiver scene) := by
  have hshown := (((Frame.Continues.refl scene.frame).withResumed false).record
    (.assistant (stage.wordingIn scene message))).withMessage (stage.wordingIn scene message)
  cases receiver with
  | some target =>
      refine .asked _ id message target rfl hready (hshown.withPending (some target))
        ?_ ?_ ?_ ?_ ?_ ?_
      all_goals simp [Frame.record, Scene.tell, Scene.display, Scene.withFrame]
  | none =>
      simp only [prompt]
      rw [Scene.finished_of_active (by simpa [Frame.record] using hactive)]
      refine .remarked _ id message rfl hready (hshown.popStep.log _) ?_ ?_ rfl rfl (by simp)
      · simp [Frame.log, Frame.popStep, Frame.record]
      · simp [Frame.log, Frame.popStep, Frame.record]

theorem ask_effect (hactive : scene.frame.transaction.state = .active) (id : String)
    (message : Wording) (receiver : Option String) :
    Effect stage (.ask id message receiver) scene (stage.ask id message receiver scene) := by
  unfold ask
  split
  · rename_i target input hwaiting hsaid
    exact answer_effect hactive id message receiver hwaiting hsaid
  · rename_i hnone
    apply prompt_effect hactive id message receiver
    cases hpending : scene.frame.pendingVariable with
    | none => exact .inl rfl
    | some target =>
        cases hinput : scene.input with
        | none => exact .inr rfl
        | some input => exact absurd hinput (hnone target input hpending)

theorem set_effect (hactive : scene.frame.transaction.state = .active) (id target : String)
    (value : Json) :
    Effect stage (.set id target value) scene (stage.set id target value scene) := by
  rw [Stage.set, Scene.finished_of_active (by simpa using hactive)]
  refine .proceeded _ none (by simp [Step.kind]) ?_ ?_ (by simp) ?_ (by simp)
    (Step.not_swaps_of_kind (by simp [Step.kind]))
  · exact (Frame.Continues.refl _).popStep.log _
  · simp [Frame.log, Frame.popStep]
  · simp [Frame.log, Frame.popStep]

theorem takeBranch_effect (hactive : scene.frame.transaction.state = .active) {step : Step}
    (hkind : step.kind ≠ .ask) (hflow : step.kind ≠ .callFlow) (kind : StepKind) (id : String)
    (branch : Option Step) (missing : String) (hbranch : ∀ next ∈ branch, step.Yields next) :
    Effect stage step scene (takeBranch kind id branch missing scene) := by
  cases branch with
  | none => exact .failed _ hkind (.inr ⟨kind, missing, rfl⟩) (Step.not_swaps_of_kind hflow)
  | some next =>
      rw [takeBranch, Scene.finished_of_active hactive]
      refine .proceeded _ (some next) hkind ?_ ?_ hbranch ?_ (by simp)
        (Step.not_swaps_of_kind hflow)
      · exact ((Frame.Continues.refl _).popStep.log _).pushStep next
      · simp [Frame.log, Frame.popStep, Frame.pushStep]
      · simp [Frame.log, Frame.popStep, Frame.pushStep]

theorem switch_effect (hactive : scene.frame.transaction.state = .active) (id subject : String)
    (branches : List (String × Step)) :
    Effect stage (.switch id subject branches) scene (Stage.switch id subject branches scene) := by
  apply takeBranch_effect hactive (by simp [Step.kind]) (by simp [Step.kind]) _ _ _ _
  intro next hnext
  obtain ⟨key, hmem⟩ := branchFor?_mem hnext
  exact .branch hmem

theorem choose_effect (hactive : scene.frame.transaction.state = .active) (id : String)
    (branches : List (Guard × Step)) :
    Effect stage (.choose id branches) scene (stage.choose id branches scene) := by
  apply takeBranch_effect hactive (by simp [Step.kind]) (by simp [Step.kind]) _ _ _ _
  intro next hnext
  obtain ⟨guard, hmem⟩ := choiceFor?_mem hnext
  exact .choice hmem

/-! ### Calls of tools

An attempt changes nothing of the scene but its journal. -/

section Call

variable {id : String} {call : ToolCall} {onFail : Option Step}

theorem callSucceeded_effect (hactive : scene.frame.transaction.state = .active) (tool : Tool)
    (result : Json) (journal : Journal) :
    Effect stage (.callTool id call onFail) scene
      (callSucceeded id call tool result { scene with journal := journal }) := by
  rw [callSucceeded, Scene.logged_of_active (by simpa [Frame.record, Frame.popStep] using hactive)]
  refine .proceeded _ none (by simp [Step.kind]) ?_ ?_ (by simp) ?_ (by simp)
    (Step.not_swaps_of_kind (by simp [Step.kind]))
  · simpa using ((Frame.Continues.refl scene.frame).popStep.record _).log _
  · simp [Frame.log, Frame.record, Frame.popStep]
  · simp [Frame.log, Frame.record, Frame.popStep]

theorem callAgain_effect (hactive : scene.frame.transaction.state = .active)
    (failure : ToolFailure) (delay : Nat) (journal : Journal) :
    Effect stage (.callTool id call onFail) scene
      (callAgain id call onFail failure delay { scene with journal := journal }) := by
  rw [callAgain, Scene.logged_of_active (by simpa using hactive)]
  refine .proceeded _ (some (.callTool id { call with retryCount := call.retryCount + 1 } onFail))
    (by simp [Step.kind]) ?_ ?_ ?_ ?_ (by simp) (Step.not_swaps_of_kind (by simp [Step.kind]))
  · exact ((Frame.Continues.refl _).log _).popStep.pushStep _
  · simp [Frame.log, Frame.popStep, Frame.pushStep]
  · intro next hnext
    cases hnext
    exact .retry
  · simp [Frame.log, Frame.popStep, Frame.pushStep]

theorem callGivenUp_effect (hactive : scene.frame.transaction.state = .active)
    (failure : ToolFailure) (journal : Journal) :
    Effect stage (.callTool id call onFail) scene
      (stage.callGivenUp id call onFail failure { scene with journal := journal }) := by
  rw [callGivenUp, Scene.logged_of_active (by simpa using hactive)]
  cases onFail with
  | none =>
      refine .gaveUp _ rfl ?_ (by simp)
      simpa using ((Frame.Continues.refl scene.frame).log _).popStep.record _
  | some handler =>
      refine .proceeded _ (some handler) (by simp [Step.kind]) ?_ ?_ ?_ ?_ (by simp)
        (Step.not_swaps_of_kind (by simp [Step.kind]))
      · simpa using (((Frame.Continues.refl scene.frame).log _).popStep.record _).pushStep handler
      · simp [Frame.log, Frame.record, Frame.popStep, Frame.pushStep]
      · intro next hnext
        cases hnext
        exact .handler
      · simp [Frame.log, Frame.record, Frame.popStep, Frame.pushStep]

theorem callFailed_effect (hactive : scene.frame.transaction.state = .active)
    (failure : ToolFailure) (journal : Journal) :
    Effect stage (.callTool id call onFail) scene
      (stage.callFailed id call onFail failure { scene with journal := journal }) := by
  simp only [callFailed]
  split
  · exact callAgain_effect hactive failure _ journal
  · exact callGivenUp_effect hactive failure journal

theorem callTool_effect (hactive : scene.frame.transaction.state = .active) :
    Effect stage (.callTool id call onFail) scene (stage.callTool id call onFail scene) := by
  unfold callTool
  split
  · exact callFailed_effect hactive _ scene.journal
  · rename_i tool _
    split
    · exact callSucceeded_effect hactive tool _ _
    · exact callFailed_effect hactive _ _

end Call

/-! ### Handing over -/

section Handover

variable {id key : String}

theorem unknownFlow_effect (hactive : scene.frame.transaction.state = .active)
    (hunknown : stage.engine.library.get? key = none) (callType : CallType) :
    Effect stage (.callFlow id key callType) scene
      (stage.unknownFlow id key callType scene) := by
  cases callType with
  | reboot => exact .rebooted _ id key none rfl hunknown.symm rfl rfl
  | call | replace =>
      simp only [unknownFlow]
      rw [Scene.finished_of_active hactive]
      refine .proceeded _ none (by simp [Step.kind]) ?_ ?_ (by simp) ?_ (by simp)
        (by simp [Step.Swaps, hunknown])
      · exact (Frame.Continues.refl _).popStep.log _
      · simp [Frame.log, Frame.popStep]
      · simp [Frame.log, Frame.popStep]

theorem call_effect (hactive : scene.frame.transaction.state = .active) {flow : Definition}
    (hflow : stage.engine.library.get? key = some flow) :
    Effect stage (.callFlow id key .call) scene (stage.call id flow scene) := by
  simp only [call]
  split
  · exact .failed _ (by simp [Step.kind]) (.inl ⟨_, rfl⟩) (by simp [Step.Swaps])
  · rename_i hroom
    rw [Scene.finished_of_active hactive]
    refine .entered _ flow _ rfl (Nat.lt_of_not_le hroom) ?_ ?_ ?_ (by simp) ⟨id, key, rfl, hflow⟩
    · exact (Frame.Continues.refl _).popStep.log _
    · simp [Frame.log, Frame.popStep]
    · simp [Frame.log, Frame.popStep]

theorem replace_effect (hactive : scene.frame.transaction.state = .active) {flow : Definition}
    (hflow : stage.engine.library.get? key = some flow) :
    Effect stage (.callFlow id key .replace) scene (stage.replace id flow scene) := by
  have hlogged : ∀ record,
      (scene.popStep.logging record).frame.transaction.state = .active := fun _ => hactive
  rw [replace, Scene.finished_of_active hactive]
  simp only [Transaction.ifOpen, Transaction.isActive_iff.2 (hlogged _), if_true, Transaction.fail,
    Transaction.finish_of_active (hlogged _)]
  exact .replaced _ flow _ _ rfl rfl rfl rfl rfl ⟨id, key, rfl, hflow⟩ (List.prefix_append _ _)

theorem callFlow_effect (hactive : scene.frame.transaction.state = .active) (callType : CallType) :
    Effect stage (.callFlow id key callType) scene (stage.callFlow id key callType scene) := by
  unfold callFlow
  split
  · rename_i hunknown
    exact unknownFlow_effect hactive hunknown _
  · rename_i flow hflow
    exact call_effect hactive hflow
  · rename_i flow hflow
    exact replace_effect hactive hflow
  · rename_i flow hflow
    exact .rebooted _ id key (some flow) rfl hflow.symm rfl rfl

end Handover

end Stage

/-- Every step of a frame whose transaction is active has one of the effects. -/
theorem perform_effect {stage : Stage} {scene : Scene} (step : Step)
    (hactive : scene.frame.transaction.state = .active) :
    Effect stage step scene (Turn.perform stage step scene) := by
  cases step with
  | say id message => exact Stage.say_effect hactive id message
  | ask id message target => exact Stage.ask_effect hactive id message target
  | set id target value => exact Stage.set_effect hactive id target value
  | switch id subject branches => exact Stage.switch_effect hactive id subject branches
  | choose id branches => exact Stage.choose_effect hactive id branches
  | callTool id call onFail => exact Stage.callTool_effect hactive
  | callFlow id key callType => exact Stage.callFlow_effect hactive callType

namespace Effect

variable {stage : Stage} {step : Step} {scene : Scene} {outcome : Outcome}

/-! ## What all effects have in common -/

/-- A step never moves its frame to another scope. -/
theorem scope (h : Effect stage step scene outcome) :
    outcome.scene.frame.scope = scene.frame.scope := by
  cases h with
  | proceeded after pushed hkind hframe => exact hframe.scope
  | answered after target input hkind hwaiting hsaid hframe => exact hframe.scope
  | asked after id message target hstep hready hframe => exact hframe.scope
  | remarked after id message hstep hready hframe => exact hframe.scope
  | gaveUp after hkind hframe => exact hframe.scope
  | entered after flow initiator hkind hroom hframe => exact hframe.scope
  | replaced after flow initiator closed hkind hframe => rw [hframe]; rfl
  | rebooted after id key flow hstep hflow hframe => rw [hframe]
  | failed error hkind herror => rfl

/-- A step never finishes the transaction that its frame goes on with. -/
theorem active (h : Effect stage step scene outcome)
    (hactive : scene.frame.transaction.state = .active) :
    outcome.scene.frame.transaction.state = .active := by
  cases h with
  | proceeded after pushed hkind hframe => exact hframe.state.trans hactive
  | answered after target input hkind hwaiting hsaid hframe => exact hframe.state.trans hactive
  | asked after id message target hstep hready hframe => exact hframe.state.trans hactive
  | remarked after id message hstep hready hframe => exact hframe.state.trans hactive
  | gaveUp after hkind hframe => exact hframe.state.trans hactive
  | entered after flow initiator hkind hroom hframe => exact hframe.state.trans hactive
  | replaced after flow initiator closed hkind hframe => rw [hframe]; rfl
  | rebooted after id key flow hstep hflow hframe => rw [hframe, hactive]
  | failed error hkind herror => exact hactive

/-- A former transaction of a frame is one it had before the step, or has failed as replaced. -/
theorem former (h : Effect stage step scene outcome) {former : Transaction}
    (hmem : former ∈ outcome.scene.frame.replaced) :
    former ∈ scene.frame.replaced ∨
      former.state = .failed ∧ former.failureReason = some Stage.replacedReason := by
  cases h with
  | proceeded after pushed hkind hframe => exact .inl (hframe.replaced ▸ hmem)
  | answered after target input hkind hwaiting hsaid hframe => exact .inl (hframe.replaced ▸ hmem)
  | asked after id message target hstep hready hframe => exact .inl (hframe.replaced ▸ hmem)
  | remarked after id message hstep hready hframe => exact .inl (hframe.replaced ▸ hmem)
  | gaveUp after hkind hframe => exact .inl (hframe.replaced ▸ hmem)
  | entered after flow initiator hkind hroom hframe => exact .inl (hframe.replaced ▸ hmem)
  | replaced after flow initiator closed hkind hframe hclosed hreason =>
      rw [hframe] at hmem
      rcases List.mem_append.1 hmem with hbefore | hnew
      · exact .inl hbefore
      · obtain rfl := List.mem_singleton.1 hnew
        exact .inr ⟨hclosed, hreason⟩
  | rebooted after id key flow hstep hflow hframe => exact .inl (hframe ▸ hmem)
  | failed error hkind herror => exact .inl hmem

/-- A frame that a step puts on top has just been started, in the scope of its caller. -/
theorem enter (h : Effect stage step scene outcome) {frame : Frame}
    (hnext : outcome.next = .ok (.enter frame)) :
    ∃ flow transaction, frame = .start flow scene.frame.scope transaction ∧
      transaction.state = .active := by
  cases h with
  | entered after flow initiator =>
      cases hnext
      exact ⟨flow, _, rfl, rfl⟩
  | _ => cases hnext

/-- Only a step that reboots makes all flows end. -/
theorem restart (h : Effect stage step scene outcome) {flow : Option Definition}
    (hnext : outcome.next = .ok (.restart flow)) : ∃ id key, step = .callFlow id key .reboot := by
  cases h with
  | rebooted after id key flow hstep => exact ⟨id, key, hstep⟩
  | _ => cases hnext

/-- A question takes the input that its frame waits for, or else it is asked; if it names a
variable, it stays the next step and the frame waits for that variable. -/
theorem ask {id : String} {message : Wording} {receiver : Option String}
    (h : Effect stage (.ask id message receiver) scene outcome) :
    (∃ after target input, outcome = ⟨after, .ok .proceed⟩ ∧ after.input = none ∧
      scene.frame.pendingVariable = some target ∧ scene.input = some input) ∨
    ∃ after, outcome = ⟨after, .ok .await⟩ ∧
      (scene.frame.pendingVariable = none ∨ scene.input = none) ∧
      after.frame.scope = scene.frame.scope ∧ after.vars = scene.vars ∧
      after.input = scene.input ∧
      after.said = scene.said ++
        [stage.question scene.frame.justResumed (stage.wordingIn scene message)] ∧
      ∀ target ∈ receiver, after.frame.steps = scene.frame.steps ∧
        after.frame.pendingVariable = some target ∧
        after.frame.lastMessage = some (stage.wordingIn scene message) := by
  cases h with
  | answered after target input hkind hwaiting hsaid hframe hsteps hpending hvars hinput =>
      exact .inl ⟨after, target, input, rfl, hinput, hwaiting, hsaid⟩
  | asked after id' message' target hstep hready hframe hsteps hpending hshown hsaid hvars hinput =>
      cases hstep
      refine .inr ⟨after, rfl, hready, hframe.scope, hvars, hinput, hsaid, ?_⟩
      intro other hother
      cases hother
      exact ⟨hsteps, hpending, hshown⟩
  | remarked after id' message' hstep hready hframe hsteps hpending hsaid hvars hinput =>
      cases hstep
      refine .inr ⟨after, rfl, hready, hframe.scope, hvars, hinput, hsaid, ?_⟩
      intro other hother
      cases hother
  | proceeded after pushed hkind => exact absurd rfl hkind
  | gaveUp after hkind => cases hkind
  | entered after flow initiator hkind => cases hkind
  | replaced after flow initiator closed hkind => cases hkind
  | rebooted after id' key flow hstep => cases hstep
  | failed error hkind herror => exact absurd rfl hkind

/-- A step that cannot be finished found no branch or no room for another frame. -/
theorem error (h : Effect stage step scene outcome) {error : EngineError}
    (hnext : outcome.next = .error error) :
    (∃ limit, error = .recursionLimit limit) ∨
      ∃ kind detail, error = .noMatchingBranch kind detail := by
  cases h with
  | failed error hkind herror =>
      cases hnext
      exact herror
  | _ => cases hnext

end Effect

end Parley
