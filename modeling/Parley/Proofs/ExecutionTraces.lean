import Mathlib.Data.List.Forall2
import Mathlib.Data.List.Induction
import Parley.Proofs.LevelShapes
import Parley.Proofs.ResumptionMarks

/-!
# Records as traces of execution

The records of a transaction are the trace of what its frame has executed since the
transaction began: one record for each step, in order, and nothing else.  A question
is executed when it is taken off its frame, and not each time it is asked; every
attempt of a tool call is executed by itself.  A transaction begins when a frame is
started, handed to another flow or resumed.
-/

set_option autoImplicit false

namespace Parley

/-! ## Records of steps -/

namespace Step

/-- The record says that the step was executed, with the id and the kind of the step: a tool call
has succeeded with a result or has not with an error, and every other step has succeeded. -/
inductive Recorded : Step → StepRecord → Prop where
  /-- A step that calls no tool. -/
  | done (step : Step) (hkind : step.kind ≠ .callTool) :
      Recorded step (.plain step.id step.kind.name .success)
  /-- An attempt that succeeded. -/
  | answered (id : String) (call : ToolCall) (onFail : Option Step) (tool : String)
      (result : Json) :
      Recorded (.callTool id call onFail)
        ⟨id, StepKind.callTool.name, some tool, some result, none, .success, call.retryCount⟩
  /-- An attempt that failed. -/
  | failed (id : String) (call : ToolCall) (onFail : Option Step) (error : String)
      (status : StepStatus) (hstatus : status ≠ .success) :
      Recorded (.callTool id call onFail)
        ⟨id, StepKind.callTool.name, some call.tool, none, some error, status, call.retryCount⟩

end Step

/-- The transaction as it was when it began. -/
def Transaction.opened (transaction : Transaction) : Transaction :=
  .start transaction.flowName transaction.initiator transaction.userId

namespace Frame

variable {library : Library} {step? : Option Step} {before middle after : Frame}

/-- The frame's transaction has just begun. -/
def Begins (frame : Frame) : Prop :=
  frame.transaction = frame.transaction.opened

/-- The step that a frame has executed, if this step was dispatched for it: a question is not
executed as long as it stays. -/
def executed? (step? : Option Step) (before after : Frame) : Option Step :=
  step?.filter fun step => step.kind != .ask || after.steps.length < before.steps.length

/-- The frame goes on with its transaction, to which the record of the step is added that it has
executed. -/
structure Logs (step? : Option Step) (before after : Frame) : Prop where
  opened : after.transaction.opened = before.transaction.opened
  steps : ∃ records, after.transaction.steps = before.transaction.steps ++ records ∧
    List.Forall₂ Step.Recorded (executed? step? before after).toList records

/-- The frame goes on with its transaction, or begins a new one because it is handed to another
flow. -/
structure Passes (library : Library) (step? : Option Step) (before after : Frame) : Prop where
  begins : (∃ step ∈ step?, step.Swaps library) → after.Begins
  logs : (¬∃ step ∈ step?, step.Swaps library) → before.Logs step? after

namespace Logs

/-- Without a step there is no record. -/
theorem of_idle (hopened : after.transaction.opened = before.transaction.opened)
    (hsteps : after.transaction.steps = before.transaction.steps) : before.Logs none after :=
  ⟨hopened, [], by rw [hsteps, List.append_nil], .nil⟩

theorem refl (frame : Frame) : frame.Logs none frame :=
  .of_idle rfl rfl

theorem of_alike (h : before.Alike after) : before.Logs none after :=
  .of_idle (by rw [h.transaction]) (by rw [h.transaction])

/-- The transaction of a frame that is interrupted has the records it had. -/
theorem of_interrupted (h : before.Alike after) : before.Logs none (Turn.paused after) := by
  refine .of_idle ?_ (by rw [steps_paused, h.transaction])
  rw [← h.transaction]
  simp only [Turn.paused, Transaction.complete, Transaction.finish, Transaction.ifActive]
  split <;> rfl

variable {step : Step}

/-- A step that is executed has its record. -/
theorem of_record {record : StepRecord} (hrecorded : step.Recorded record)
    (hexecuted : step.kind ≠ .ask ∨ after.steps.length < before.steps.length)
    (htransaction : after.transaction = before.transaction.withRecords [record]) :
    before.Logs (some step) after := by
  refine ⟨by rw [htransaction]; rfl, [record], by rw [htransaction]; rfl, ?_⟩
  have hstep : executed? (some step) before after = some step := by
    simpa [executed?] using hexecuted
  rw [hstep]
  exact .cons hrecorded .nil

/-- A question that stays has no record. -/
theorem of_question (hkind : step.kind = .ask) (hstays : after.steps.length = before.steps.length)
    (htransaction : after.transaction = before.transaction) : before.Logs (some step) after := by
  refine ⟨by rw [htransaction], [], by rw [htransaction, List.append_nil], ?_⟩
  have hnone : executed? (some step) before after = none := by
    simp [executed?, hkind, hstays]
  rw [hnone]
  exact .nil

end Logs

/-- A frame that is left alone goes on with its transaction. -/
theorem Passes.of_logs (h : before.Logs none after) : before.Passes library none after :=
  ⟨by simp, fun _ => h⟩

end Frame

/-! ## Steps -/

/-- A step that is finished has its record, whatever else it does to the frame's other fields. -/
theorem Scene.logs_of_finished {scene after : Scene} {step : Step} {rest : List Step}
    (hkind : step.kind ≠ .callTool) (hsteps : scene.frame.steps = step :: rest)
    (hexecuted : step.kind ≠ .ask ∨ after.frame.steps = rest)
    (htransaction : after.frame.transaction =
      scene.frame.transaction.withRecords [.plain step.id step.kind.name .success]) :
    scene.frame.Logs (some step) after.frame := by
  refine .of_record (.done step hkind) (hexecuted.imp_right fun hrest => ?_) htransaction
  rw [hrest, hsteps]
  exact Nat.lt_succ_self _

namespace Stage

variable {stage : Stage} {scene : Scene} {next : Next}

section Call

variable {id : String} {call : ToolCall} {onFail : Option Step}

theorem callFailed_logs (hactive : scene.frame.transaction.state = .active)
    (failure : ToolFailure) (journal : Journal) :
    scene.frame.Logs (some (.callTool id call onFail))
      (stage.callFailed id call onFail failure { scene with journal := journal }).scene.frame := by
  simp only [callFailed]
  split
  · rw [callAgain, Scene.logged_of_active (by simpa using hactive)]
    exact .of_record (.failed id call onFail _ .retrying (by simp)) (.inl (by simp [Step.kind])) rfl
  · rw [callGivenUp, Scene.logged_of_active (by simpa using hactive)]
    refine .of_record (.failed id call onFail (Redaction.text failure.describe) .failed (by simp))
      (.inl (by simp [Step.kind])) ?_
    cases onFail <;> simp [Scene.outcome, Frame.record, Frame.popStep, Frame.pushStep, Frame.log,
      failedRecord, StepRecord.redacted]

theorem callTool_logs (hactive : scene.frame.transaction.state = .active) :
    scene.frame.Logs (some (.callTool id call onFail))
      (stage.callTool id call onFail scene).scene.frame := by
  unfold callTool
  split
  · exact callFailed_logs hactive _ scene.journal
  · split
    · rename_i tool hfound _ journal result hattempt
      rw [callSucceeded,
        Scene.logged_of_active (by simpa [Frame.record, Frame.popStep] using hactive)]
      refine .of_record (.answered id call onFail tool.name (Redaction.value result))
        (.inl (by simp [Step.kind])) ?_
      simp [Scene.outcome, Frame.record, Frame.popStep, Frame.log, StepRecord.redacted]
    · exact callFailed_logs hactive _ _

end Call

theorem takeBranch_logs (hactive : scene.frame.transaction.state = .active) {step : Step}
    {rest : List Step} (hsteps : scene.frame.steps = step :: rest) (hkind : step.kind ≠ .callTool)
    (hask : step.kind ≠ .ask) {branch : Option Step} {missing : String}
    (hnext : (takeBranch step.kind step.id branch missing scene).next = .ok next) :
    scene.frame.Logs (some step)
      (takeBranch step.kind step.id branch missing scene).scene.frame := by
  cases branch with
  | none => cases hnext
  | some chosen =>
      rw [takeBranch, Scene.finished_of_active hactive]
      exact Scene.logs_of_finished hkind hsteps (.inl hask) rfl

theorem ask_logs (hactive : scene.frame.transaction.state = .active) {id : String}
    {message : Wording} {receiver : Option String} {rest : List Step}
    (hsteps : scene.frame.steps = .ask id message receiver :: rest) :
    scene.frame.Logs (some (.ask id message receiver))
      (stage.ask id message receiver scene).scene.frame := by
  have hkind : (Step.ask id message receiver).kind ≠ .callTool := by simp [Step.kind]
  unfold ask
  split
  · rw [answer, Scene.finished_of_active (by simpa using hactive)]
    refine Scene.logs_of_finished hkind hsteps (.inr ?_) rfl
    exact congrArg List.tail hsteps
  · cases receiver with
    | some target => exact .of_question rfl rfl rfl
    | none =>
        simp only [prompt]
        rw [Scene.finished_of_active (by simpa [Frame.record] using hactive)]
        refine Scene.logs_of_finished hkind hsteps (.inr ?_) rfl
        exact congrArg List.tail hsteps

theorem callFlow_logs (hactive : scene.frame.transaction.state = .active) {id key : String}
    {callType : CallType} {rest : List Step}
    (hsteps : scene.frame.steps = .callFlow id key callType :: rest)
    (hkept : ¬Step.Swaps stage.engine.library (.callFlow id key callType))
    (hnext : (stage.callFlow id key callType scene).next = .ok next)
    (hquiet : ∀ flow, next ≠ .restart flow) :
    scene.frame.Logs (some (.callFlow id key callType))
      (stage.callFlow id key callType scene).scene.frame := by
  have hkind : (Step.callFlow id key callType).kind ≠ .callTool := by simp [Step.kind]
  have hask : (Step.callFlow id key callType).kind ≠ .ask := by simp [Step.kind]
  unfold callFlow at hnext ⊢
  cases hflow : stage.engine.library.get? key with
  | none =>
      simp only [hflow] at hnext
      cases callType with
      | reboot =>
          cases hnext
          exact absurd rfl (hquiet none)
      | call | replace =>
          simp only [unknownFlow]
          rw [Scene.finished_of_active hactive]
          exact Scene.logs_of_finished hkind hsteps (.inl hask) rfl
  | some flow =>
      simp only [hflow] at hnext
      cases callType with
      | reboot =>
          cases hnext
          exact absurd rfl (hquiet (some flow))
      | call =>
          simp only [call] at hnext ⊢
          split at hnext
          · cases hnext
          · rename_i hroom
            rw [if_neg hroom, Scene.finished_of_active hactive]
            exact Scene.logs_of_finished hkind hsteps (.inl hask) rfl
      | replace => exact absurd ⟨id, key, flow, rfl, hflow⟩ hkept

end Stage

section Perform

variable {stage : Stage} {scene : Scene} {step : Step}

/-- A step that is carried through, and neither starts everything anew nor hands its frame to
another flow, leaves its record. -/
theorem perform_logs (hactive : scene.frame.transaction.state = .active) {rest : List Step}
    (hsteps : scene.frame.steps = step :: rest) (hkept : ¬step.Swaps stage.engine.library)
    {next : Next} (hnext : (Turn.perform stage step scene).next = .ok next)
    (hquiet : ∀ flow, next ≠ .restart flow) :
    scene.frame.Logs (some step) (Turn.perform stage step scene).scene.frame := by
  cases step with
  | say id message =>
      simp only [Turn.perform, Stage.say]
      rw [Scene.finished_of_active (by simpa [Frame.record] using hactive)]
      exact Scene.logs_of_finished (by simp [Step.kind]) hsteps (.inl (by simp [Step.kind])) rfl
  | ask id message receiver => exact Stage.ask_logs hactive hsteps
  | set id target value =>
      simp only [Turn.perform, Stage.set]
      rw [Scene.finished_of_active (by simpa using hactive)]
      exact Scene.logs_of_finished (by simp [Step.kind]) hsteps (.inl (by simp [Step.kind])) rfl
  | switch id subject branches =>
      exact Stage.takeBranch_logs hactive hsteps (by simp [Step.kind]) (by simp [Step.kind]) hnext
  | choose id branches =>
      exact Stage.takeBranch_logs hactive hsteps (by simp [Step.kind]) (by simp [Step.kind]) hnext
  | callTool id call onFail => exact Stage.callTool_logs hactive
  | callFlow id key callType => exact Stage.callFlow_logs hactive hsteps hkept hnext hquiet

/-- A frame that is handed to another flow begins a new transaction. -/
theorem perform_begins (hactive : scene.frame.transaction.state = .active)
    (hswaps : step.Swaps stage.engine.library) :
    (Turn.perform stage step scene).scene.frame.Begins := by
  obtain ⟨id, key, flow, rfl, hflow⟩ := hswaps
  have hlogged : ∀ record,
      (scene.popStep.logging record).frame.transaction.state = .active := fun _ => hactive
  simp only [Turn.perform, Stage.callFlow, hflow, Stage.replace]
  rw [Scene.finished_of_active hactive]
  simp only [Transaction.ifOpen, Transaction.isActive_iff.2 (hlogged _), if_true,
    Transaction.fail, Transaction.finish_of_active (hlogged _)]
  rfl

/-- A frame that a step puts on top begins a transaction. -/
theorem Effect.enter_begins {outcome : Outcome} (h : Effect stage step scene outcome)
    {frame : Frame} (hnext : outcome.next = .ok (.enter frame)) : frame.Begins := by
  cases h with
  | entered after flow initiator =>
      cases hnext
      rfl
  | _ => cases hnext

end Perform

/-! ## Frames -/

/-- What becomes of the records of frames, the innermost first, while no level is left: frames are
taken from the top or come on top, with a new transaction, and the frame that runs goes on. -/
inductive Recording (library : Library) (step? : Option Step) : List Frame → List Frame → Prop where
  | dropped (gone rest : List Frame) (hidle : gone = [] → step? = none) :
      Recording library step? (gone ++ rest) rest
  | kept (frame frame' : Frame) (rest : List Frame) (hpasses : frame.Passes library step? frame') :
      Recording library step? (frame :: rest) (frame' :: rest)
  | entered (top frame frame' : Frame) (rest : List Frame) (hbegins : top.Begins)
      (hpasses : frame.Passes library step? frame') :
      Recording library step? (frame :: rest) (top :: frame' :: rest)
  | started (top : Frame) (rest : List Frame) (hbegins : top.Begins) (hidle : step? = none) :
      Recording library step? rest (top :: rest)

namespace Recording

variable {library : Library} {step? : Option Step} {before after : List Frame} {place : Nat}
  {a b : Frame}

/-- A frame whose place stays occupied goes on; the step was dispatched for it only if it ran. -/
theorem passes (h : Recording library step? before after) (ha : before.reverse[place]? = some a)
    (hb : after.reverse[place]? = some b) :
    a.Passes library (if before.length = place + 1 then step? else none) b := by
  have hunder : ∀ {frame frame' : Frame} {rest : List Frame}, frame.Passes library step? frame' →
      (frame :: rest).reverse[place]? = some a → (frame' :: rest).reverse[place]? = some b →
      a.Passes library (if (frame :: rest).length = place + 1 then step? else none) b := by
    intro frame frame' rest hpasses ha hb
    simp only [List.length_cons, Nat.add_right_cancel_iff]
    rcases place_cons_cons ha hb with ⟨hbelow, rfl⟩ | ⟨htop, rfl, rfl⟩
    · rw [if_neg (Nat.ne_of_gt hbelow)]
      exact .of_logs (.refl _)
    · rwa [if_pos htop.symm]
  cases h with
  | dropped gone rest hidle =>
      have hsame := place_append gone hb
      cases ha.symm.trans hsame
      have hplace := place_lt hb
      -- the frame ran only if no frame was dropped
      have hnone : (if (gone ++ after).length = place + 1 then step? else none) = none := by
        rw [ite_eq_right_iff, List.length_append]
        intro htop
        exact hidle (List.length_eq_zero_iff.1 (by omega))
      rw [hnone]
      exact .of_logs (.refl _)
  | kept frame frame' rest hpasses => exact hunder hpasses ha hb
  | entered top frame frame' rest hbegins hpasses =>
      rcases place_cons hb with hb | ⟨htop, -⟩
      · exact hunder hpasses ha hb
      · have hplace := place_lt ha
        simp only [List.length_cons] at hplace htop
        omega
  | started top rest hbegins hidle =>
      have hsame := place_append [top] ha
      cases hsame.symm.trans hb
      rw [hidle, ite_self]
      exact .of_logs (.refl _)

/-- A frame at a place that was not occupied before begins a transaction. -/
theorem begins (h : Recording library step? before after) (hfree : before.length ≤ place)
    (hb : after.reverse[place]? = some b) : b.Begins := by
  have hplace := place_lt hb
  cases h with
  | dropped gone rest hidle =>
      rw [List.length_append] at hfree
      omega
  | kept frame frame' rest hpasses =>
      simp only [List.length_cons] at hfree hplace
      omega
  | entered top frame frame' rest hbegins hpasses =>
      rcases place_cons hb with hb | ⟨-, rfl⟩
      · have hlower := place_lt hb
        simp only [List.length_cons] at hfree hlower
        omega
      · exact hbegins
  | started top rest hbegins hidle =>
      rcases place_cons hb with hb | ⟨-, rfl⟩
      · have hlower := place_lt hb
        omega
      · exact hbegins

end Recording

/-! ## Beats -/

namespace Beat

/-- The step that was dispatched for the frame at the place. -/
def stepAt? (beat : Beat) (place : Nat) : Option Step :=
  if beat.before.frames.length = place + 1 then beat.dispatched else none

/-- The step that the frame at the place executed in the beat, if the frame is still there. -/
def executed? (beat : Beat) (place : Nat) : Option Step :=
  match beat.before.frameAt? place, beat.after.frameAt? place with
  | some before, some after => before.executed? (beat.stepAt? place) after
  | _, _ => none

/-- In the beat the frame at the place begins its transaction: it is started, handed to another flow
or resumed. -/
def Begins (library : Library) (beat : Beat) (place : Nat) : Prop :=
  ¬beat.Outlasts place ∨ beat.Swaps library place ∨ beat.Resumes place

/-- How a beat deals with the transactions of frames. -/
structure Accounts (library : Library) (beat : Beat) : Prop where
  begins : ∀ place frame, beat.after.frameAt? place = some frame → beat.Begins library place →
    frame.Begins
  logs : ∀ place before after, beat.before.frameAt? place = some before →
    beat.after.frameAt? place = some after → ¬beat.Begins library place →
    before.Logs (beat.stepAt? place) after

variable {library : Library} {beat : Beat} {place : Nat}

theorem swaps_iff : beat.Swaps library place ↔ ∃ step ∈ beat.stepAt? place, step.Swaps library := by
  unfold Swaps serves stepAt?
  by_cases htop : beat.before.frames.length = place + 1
  · rw [if_pos htop]
    constructor
    · rintro ⟨-, step, hstep, hswaps⟩
      exact ⟨step, hstep, hswaps⟩
    · rintro ⟨step, hstep, hswaps⟩
      exact ⟨by simp [Option.mem_def.1 hstep, htop], step, hstep, hswaps⟩
  · simp [htop]

/-- While everything stays that is not taken from the top, a transaction begins only with its frame
or with the flow that the frame is handed to. -/
theorem Accounts.of_recording (hquiet : ∀ id key, beat.dispatched ≠ some (.callFlow id key .reboot))
    (hcount : beat.before.count ≤ beat.after.count)
    (hrecording : Recording library beat.dispatched beat.before.frames beat.after.frames) :
    beat.Accounts library := by
  have hstays : ∀ place, ¬beat.Resumes place := fun place hresumes =>
    absurd hresumes.1 (Nat.not_lt.2 hcount)
  refine ⟨fun place frame hafter hbegins => ?_, fun place before after hbefore hafter hgoes => ?_⟩
  · have hplace : place < beat.after.frames.length := place_lt hafter
    by_cases hold : place < beat.before.frames.length
    · have hswaps : beat.Swaps library place := by
        rcases hbegins with hnew | hswaps | hresumes
        · exact absurd ⟨hold, hplace, hquiet⟩ hnew
        · exact hswaps
        · exact absurd hresumes (hstays place)
      have hbefore : beat.before.frames.reverse[place]? = some _ :=
        List.getElem?_eq_getElem (by simpa using hold)
      exact (hrecording.passes hbefore hafter).begins (swaps_iff.1 hswaps)
    · exact hrecording.begins (Nat.not_lt.1 hold) hafter
  · exact (hrecording.passes hbefore hafter).logs fun hswaps =>
      hgoes (.inr (.inl (swaps_iff.2 hswaps)))

/-- When everything starts anew, every transaction begins. -/
theorem Accounts.of_reboot {id key : String}
    (hreboot : beat.dispatched = some (.callFlow id key .reboot))
    (hbegins : ∀ frame ∈ beat.after.frames, frame.Begins) : beat.Accounts library := by
  refine ⟨fun place frame hafter _ => ?_, fun place before after _ _ hgoes => ?_⟩
  · exact hbegins frame (List.mem_reverse.1 (List.mem_of_getElem? hafter))
  · exact absurd (.inl fun houtlasts => houtlasts.noReboot id key hreboot) hgoes

/-- When a level is left, the frame that goes on begins a transaction, and all others are left
alone. -/
theorem Accounts.of_resumed {frame frame' : Frame} {callers : Level} {below : List Level}
    (hnone : beat.dispatched = none) (hbefore : beat.before = ⟨[], (frame :: callers) :: below⟩)
    (hafter : beat.after = ⟨frame' :: callers, below⟩) (hbegins : frame'.Begins) :
    beat.Accounts library := by
  have hidle : ∀ place, beat.stepAt? place = none := fun place => by
    rw [stepAt?, hnone, ite_self]
  refine ⟨fun place other hother hnew => ?_, fun place first last hfirst hlast hgoes => ?_⟩
  · have hplace : place < beat.after.frames.length := place_lt hother
    rw [hafter] at hother
    rcases place_cons hother with hbelow | ⟨-, rfl⟩
    · exfalso
      have hlower : place < (callers ++ below.flatten).length := place_lt hbelow
      rcases hnew with hnew | hswaps | hresumes
      · refine hnew ⟨?_, hplace, by simp [hnone]⟩
        rw [hbefore]
        exact Nat.lt_succ_of_lt hlower
      · obtain ⟨step, hstep, -⟩ := swaps_iff.1 hswaps
        rw [hidle] at hstep
        cases hstep
      · rw [resumes_iff hbefore hafter] at hresumes
        omega
    · exact hbegins
  · rw [hbefore] at hfirst
    rw [hafter] at hlast
    rw [hidle]
    rcases place_cons_cons hfirst hlast with ⟨-, rfl⟩ | ⟨htop, -, -⟩
    · exact .refl _
    · exact absurd (.inr (.inr ((resumes_iff hbefore hafter).2 htop))) hgoes

end Beat

/-! ## Rounds -/

namespace Turn

variable {engine : Engine} {turn : Turn}

/-- A reboot leaves no transaction that has gone on. -/
theorem restart_begins (turn : Turn) (scene : Scene) (flow : Option Definition) :
    ∀ frame ∈ (turn.settle ⟨scene, .ok (.restart flow)⟩).1.session.levels.frames,
      frame.Begins := by
  cases flow with
  | none => exact List.forall_mem_nil _
  | some flow =>
      intro frame hframe
      obtain rfl := List.mem_singleton.1 hframe
      rfl

/-- A step that is carried through leaves its record in the frame that runs, or takes this frame
away. -/
theorem settle_recording {frame : Frame} {callers : Level} {suspended : List Level} {step : Step}
    {rest : List Step} (hlevels : turn.session.levels = ⟨frame :: callers, suspended⟩)
    (hactive : frame.transaction.state = .active) (hsteps : frame.steps = step :: rest)
    (vars : Fields) {next : Next}
    (hnext : (perform (turn.stage engine) step (turn.scene frame vars)).next = .ok next)
    (hquiet : ∀ flow, next ≠ .restart flow) :
    Recording engine.library (some step) turn.session.levels.frames
      (turn.settle (perform (turn.stage engine) step
        (turn.scene frame vars))).1.session.levels.frames := by
  have hpasses : (turn.scene frame vars).frame.Passes (turn.stage engine).engine.library (some step)
      (perform (turn.stage engine) step (turn.scene frame vars)).scene.frame := by
    refine ⟨fun hswaps => perform_begins hactive (by simpa using hswaps), fun hkept => ?_⟩
    exact perform_logs hactive hsteps (by simpa using hkept) hnext hquiet
  have heffect : Effect (turn.stage engine) step (turn.scene frame vars)
      (perform (turn.stage engine) step (turn.scene frame vars)) := perform_effect step hactive
  have hdone : ∀ flow, (perform (turn.stage engine) step (turn.scene frame vars)).next ≠
      .ok (.restart flow) := by
    intro flow
    rw [hnext, ne_eq, Except.ok.injEq]
    exact hquiet flow
  rw [levels_settle hlevels _ hdone, hlevels]
  generalize perform (turn.stage engine) step (turn.scene frame vars) = outcome
    at hpasses heffect hnext
  obtain ⟨scene, progress⟩ := outcome
  obtain rfl : progress = .ok next := hnext
  match next with
  | .proceed | .await => exact .kept frame scene.frame _ hpasses
  | .leave => exact .dropped [frame] _ (by simp)
  | .enter top => exact .entered top frame scene.frame _ (heffect.enter_begins rfl) hpasses
  | .restart flow => exact absurd rfl (hquiet flow)

/-- A round that neither reboots nor leaves a level deals with records as its step does, or drops
the frames of the innermost level. -/
theorem round_recording (horder : turn.session.InOrder) (hquiet : ¬turn.Reboots engine)
    (hstays : turn.task engine ≠ .resume) :
    turn.session.levels.count ≤ (turn.round engine).turn.session.levels.count ∧
      Recording engine.library (turn.task engine).step?
        turn.session.levels.frames (turn.round engine).turn.session.levels.frames := by
  have hdone := fun progress (h : (turn.step engine).2 = .ok progress) => (round_of_ok h).1
  have hfailed := fun error (h : (turn.step engine).2 = .error error) => round_of_error h
  have hmove := step_move engine horder
  generalize hstep : turn.step engine = result at hmove hdone hfailed
  cases hmove with
  | idled hlevels =>
      rw [hdone .done rfl, hlevels]
      refine ⟨Nat.le_refl _, .dropped [] [] fun _ => ?_⟩
      simp [task, hlevels, Levels.top?, Levels.empty, Task.step?]
  | resumed frame callers below hlevels =>
      exact absurd (by simp [task, hlevels, Levels.top?]) hstays
  | exhausted frame callers suspended hlevels hlimit =>
      have hcharged : turn.charged.session.levels = ⟨frame :: callers, suspended⟩ := hlevels
      rw [hfailed _ rfl, levels_abort, hcharged, hlevels]
      exact ⟨Nat.le_refl _, .dropped (frame :: callers) _ (by simp)⟩
  | finished frame callers suspended hlevels hlimit hsteps =>
      rw [hdone .running rfl, hlevels]
      exact ⟨Nat.le_refl _, .dropped [frame] _ (by simp)⟩
  | performed frame callers suspended step rest vars outcome hlevels hlimit hsteps hvars heffect =>
      have hcharged : turn.charged.session.levels = ⟨frame :: callers, suspended⟩ := hlevels
      have htop : turn.session.levels.top? = some frame := by rw [hlevels]; rfl
      have hactive := horder.active_of_top htop
      have htask : turn.task engine = .dispatch frame step :=
        task_eq_dispatch.2 ⟨htop, hlimit, rest, hsteps⟩
      have hperformed : Effect (turn.charged.stage engine) step (turn.charged.scene frame vars)
          (perform (turn.charged.stage engine) step (turn.charged.scene frame vars)) :=
        perform_effect step hactive
      have hnext := not_restart hquiet hlevels hlimit hsteps hperformed
      have hlevel := levels_settle hcharged _ hnext
      rw [hstep.symm.trans (step_of_next hlevels hvars hlimit hsteps)] at hdone hfailed
      rw [htask]
      cases hprogress : (perform (turn.charged.stage engine) step
          (turn.charged.scene frame vars)).next with
      | error error =>
          have haborted : (turn.charged.settle (perform (turn.charged.stage engine) step
              (turn.charged.scene frame vars))).2 = .error error := by
            simp only [settle, hprogress]
          rw [hfailed error haborted, levels_abort, hlevel, hlevels]
          exact ⟨Nat.le_refl _, .dropped (frame :: callers) _ (by simp)⟩
      | ok next =>
          obtain ⟨progress, hran⟩ : ∃ progress, (turn.charged.settle (perform
              (turn.charged.stage engine) step (turn.charged.scene frame vars))).2 =
                .ok progress := by
            simp only [settle, hprogress]
            exact ⟨_, rfl⟩
          have hkept : ∀ flow, next ≠ .restart flow := by
            rintro flow rfl
            exact hnext flow hprogress
          rw [hdone progress hran]
          refine ⟨?_, settle_recording hcharged hactive hsteps vars hprogress hkept⟩
          rw [hlevel, hlevels]
          exact Nat.le_refl _

/-- A round deals with frames as every beat does. -/
theorem beat_tends (horder : turn.session.InOrder) : (turn.beat engine).Tends := by
  unfold beat
  cases hround : turn.round engine with
  | onward next => exact round_tends horder (.inl hround)
  | ended next => exact round_tends horder (.inr hround)

/-- A frame that goes on after an interruption begins a transaction. -/
theorem begins_resumed {frame : Frame} (hstate : frame.transaction.state = .completed)
    (userId : String) : (resumed userId frame).Begins := by
  have hfinished : ¬frame.transaction.isActive = true := by
    simp [Transaction.isActive_iff, hstate]
  rw [Frame.Begins, resumed, if_neg hfinished]
  rfl

/-- How a round deals with transactions. -/
theorem beat_accounts (horder : turn.session.InOrder) :
    (turn.beat engine).Accounts engine.library := by
  by_cases hreboots : turn.Reboots engine
  · obtain ⟨scene, flow, hstep⟩ := step_of_reboots horder hreboots
    obtain ⟨id, key, hreboot⟩ := hreboots
    refine .of_reboot hreboot ?_
    show ∀ frame ∈ (turn.round engine).turn.session.levels.frames, frame.Begins
    rw [levels_of_restart hstep]
    exact restart_begins turn.charged scene flow
  · by_cases hresume : turn.task engine = .resume
    · have hnone : (turn.beat engine).dispatched = none := by simp [beat, hresume, Task.step?]
      obtain ⟨frame, transaction, callers, below, hbefore, hafter⟩ :=
        (round_leftLevel horder hresume).levels
      have htends : (turn.beat engine).Tends := beat_tends horder
      -- a level is left here, which rules out every other way to deal with frames
      cases htends with
      | rebooted id key hreboot => exact absurd ⟨id, key, hreboot⟩ hreboots
      | tended htended =>
          have hcount : turn.session.levels.count ≤ (turn.round engine).turn.session.levels.count :=
            htended.count_le
          rw [hbefore, hafter] at hcount
          exact absurd hcount (Nat.not_succ_le_self _)
      | resumed userId frame callers below hstate hfirst hlast =>
          exact .of_resumed hnone hfirst hlast (begins_resumed hstate userId)
    · obtain ⟨hcount, hrecording⟩ := round_recording horder hreboots hresume
      exact .of_recording (fun id key hreboot => hreboots ⟨id, key, hreboot⟩) hcount hrecording

end Turn

/-! ## How turns begin -/

section Begin

/-- A flow that a turn begins with begins a transaction. -/
theorem Turn.activate_begins (turn : Turn) (flow : Definition) (initiator : String) :
    ∀ frame ∈ (turn.activate flow initiator).session.levels.top?, frame.Begins := by
  rintro frame ⟨⟩
  rfl

theorem Turn.welcome_begins {engine : Engine} {turn after : Turn} {input : String}
    (h : turn.welcome engine input = .running after) :
    ∀ frame ∈ after.session.levels.top?, frame.Begins := by
  unfold welcome at h
  simp only at h
  split at h
  · cases h
  · cases h
  · cases h
    exact activate_begins _ _ _

/-- A reaction leaves the levels as they are, or leaves no frame to run, or one that begins a
transaction. -/
theorem Turn.carryOut_begins {engine : Engine} {turn after : Turn} {frame named : Frame}
    {callers : Level} {suspended : List Level} {reaction : Reaction}
    (hlevels : turn.session.levels = ⟨frame :: callers, suspended⟩)
    (h : turn.carryOut engine named reaction = .running after) :
    after.session.levels = turn.session.levels ∨ ∀ top ∈ after.session.levels.top?, top.Begins := by
  cases reaction with
  | interrupt flow =>
      cases h
      exact .inr (activate_begins _ _ _)
  | cancel =>
      obtain ⟨cancelled, hcancel, hdrained, -⟩ := cancel_running hlevels engine
      simp only [carryOut, hcancel, Opening.running.injEq] at h
      subst h
      rw [hdrained]
      refine .inr fun top htop => ?_
      cases htop
  | help | status | confirm flow => cases h
  | stay | goOn =>
      cases h
      exact .inl rfl

theorem Engine.opening_begins {engine : Engine} {session : Session} {exchange : Exchange}
    {turn : Turn} (hrole : exchange.entry.role = .user)
    (h : engine.opening exchange.journal session exchange.entry = .running turn) :
    turn.session.levels.frames.length = session.levels.frames.length ∨
      ∀ top ∈ turn.session.levels.top?, top.Begins := by
  rcases hlevels : session.levels with ⟨current, suspended⟩
  cases current with
  | nil =>
      obtain ⟨hopening, -⟩ := opening_of_nil engine exchange hlevels
      exact .inr (Turn.welcome_begins (hopening.symm.trans h))
  | cons frame callers =>
      obtain ⟨opened, named, reaction, -, hopening, htouched, -⟩ :=
        opening_of_frame engine hrole hlevels
      obtain ⟨frame', -, hopened⟩ := htouched.levels_eq hlevels
      rcases Turn.carryOut_begins hopened (hopening.symm.trans h) with hsame | hbegins
      · rw [hsame, hopened]
        exact .inl rfl
      · exact .inr hbegins

/-- When a turn begins, frames go on with the records they have, and a flow that starts begins a
transaction. -/
theorem Begun.recording {library : Library} {before after : Levels} (h : Begun library before after)
    (hbegins : after.frames.length = before.frames.length ∨ ∀ top ∈ after.top?, top.Begins) :
    before.count ≤ after.count ∧ Recording library none before.frames after.frames := by
  have hnew : ∀ {top : Frame}, after.top? = some top →
      after.frames.length = before.frames.length + 1 → top.Begins := by
    intro top htop hmore
    rcases hbegins with hsame | hbegins
    · omega
    · exact hbegins top htop
  cases h with
  | kept frame frame' callers suspended hlevels halike =>
      subst hlevels
      exact ⟨Nat.le_refl _, .kept frame frame' _ (.of_logs (.of_alike halike))⟩
  | cancelled frame callers suspended hlevels =>
      subst hlevels
      exact ⟨Nat.le_refl _, .dropped (frame :: callers) _ (by simp)⟩
  | interrupted frame frame' callers suspended key flow scope transaction hlevels halike hflow =>
      subst hlevels
      have hpasses : frame.Passes library none (Turn.paused frame') :=
        .of_logs (.of_interrupted halike)
      exact ⟨Nat.le_succ _, .entered _ frame _ _ (hnew rfl rfl) hpasses⟩
  | welcomed suspended key flow scope transaction hlevels hflow =>
      subst hlevels
      exact ⟨Nat.le_refl _, .started _ _ (hnew rfl rfl) rfl⟩

theorem Session.Touched.recording {before after : Session} (h : before.Touched after)
    (library : Library) : before.levels.count ≤ after.levels.count ∧
      Recording library none before.levels.frames after.levels.frames := by
  rcases hlevels : before.levels with ⟨current, suspended⟩
  cases current with
  | nil =>
      rw [h.levels_eq_of_nil hlevels]
      exact ⟨Nat.le_refl _, .dropped [] _ fun _ => rfl⟩
  | cons frame callers =>
      obtain ⟨frame', halike, hafter⟩ := h.levels_eq hlevels
      rw [hafter]
      exact ⟨Nat.le_refl _, .kept frame frame' _ (.of_logs (.of_alike halike))⟩

end Begin

/-! ## Conversations -/

namespace Engine

theorem history_accounts (engine : Engine) {session : Session} (horder : session.InOrder)
    (exchanges : List Exchange) :
    ∀ beat ∈ engine.history session exchanges, beat.Accounts engine.library := by
  intro beat hbeat
  obtain ⟨earlier, exchange, later, -, hexchange⟩ := exchange_of_beat hbeat
  rcases cases_of_beat (after_inOrder horder earlier) hexchange with
    ⟨turn, hrole, hopening, rfl⟩ | ⟨turn, hturn, hordered, rfl⟩ | ⟨htouched, rfl⟩
  · obtain ⟨hcount, hrecording⟩ :=
      (opening_begun hrole hopening).recording (opening_begins hrole hopening)
    exact .of_recording nofun hcount hrecording
  · exact Turn.beat_accounts hordered
  · obtain ⟨hcount, hrecording⟩ := htouched.recording engine.library
    exact .of_recording nofun hcount hrecording

end Engine

/-! ## Histories -/

/-- The frame's transaction is the trace of what it has executed: in one of the beats it began, and
in none of the later ones another did, and its records are those of the steps that the frame at the
place executed in these, in order. -/
def Frame.TracedIn (library : Library) (beats : List Beat) (place : Nat) (frame : Frame) : Prop :=
  ∃ earlier first since, beats = earlier ++ first :: since ∧ first.Begins library place ∧
    (∀ beat ∈ since, ¬beat.Begins library place) ∧
    (∃ begun, first.after.frameAt? place = some begun ∧
      begun.transaction = frame.transaction.opened) ∧
    List.Forall₂ Step.Recorded (since.filterMap fun beat => beat.executed? place)
      frame.transaction.steps

namespace Frame.TracedIn

variable {library : Library} {beats : List Beat} {beat : Beat} {place : Nat} {before frame : Frame}

/-- A transaction that has just begun has no records. -/
theorem of_begins (hbegins : beat.Begins library place)
    (hafter : beat.after.frameAt? place = some frame) (hfresh : frame.Begins) :
    frame.TracedIn library (beats ++ [beat]) place := by
  refine ⟨beats, beat, [], rfl, hbegins, nofun, ⟨frame, hafter, hfresh⟩, ?_⟩
  rw [hfresh]
  exact .nil

/-- A further beat adds the record of the step that was executed in it. -/
theorem concat (h : before.TracedIn library beats place) (hgoes : ¬beat.Begins library place)
    (hbefore : beat.before.frameAt? place = some before)
    (hafter : beat.after.frameAt? place = some frame)
    (hlogs : before.Logs (beat.stepAt? place) frame) :
    frame.TracedIn library (beats ++ [beat]) place := by
  obtain ⟨earlier, first, since, rfl, hfirst, hsince, ⟨begun, hbegun, hopened⟩, htrace⟩ := h
  obtain ⟨records, hrecords, hexecuted⟩ := hlogs.steps
  have hstep : beat.executed? place = before.executed? (beat.stepAt? place) frame := by
    simp only [Beat.executed?, hbefore, hafter]
  have hlast : [beat].filterMap (fun beat => beat.executed? place) =
      (before.executed? (beat.stepAt? place) frame).toList := by
    rw [List.filterMap_cons, hstep]
    cases before.executed? (beat.stepAt? place) frame <;> rfl
  refine ⟨earlier, first, since ++ [beat], by simp, hfirst, ?_, ⟨begun, hbegun, ?_⟩, ?_⟩
  · exact List.forall_mem_append.2 ⟨hsince, by simpa using hgoes⟩
  · rw [hopened, hlogs.opened]
  · rw [hrecords, List.filterMap_append, hlast]
    exact List.rel_append htrace hexecuted

end Frame.TracedIn

/-- Every frame's transaction is the trace of what the frame has executed since it began. -/
theorem Beats.traced {library : Library} {first last : Levels} {beats : List Beat}
    (h : Beats library first beats last) (haccounts : ∀ beat ∈ beats, beat.Accounts library)
    (hfirst : first.frames = []) {place : Nat} {frame : Frame}
    (hframe : last.frameAt? place = some frame) : frame.TracedIn library beats place := by
  induction beats using List.reverseRecOn generalizing last frame with
  | nil =>
      obtain rfl := h.eq_of_nil
      simp [Levels.frameAt?, hfirst] at hframe
  | append_singleton beats beat ih =>
      obtain ⟨hearlier, rfl⟩ := h.of_concat
      have hbeat := haccounts beat (by simp)
      -- the last beat begins the transaction, or adds to what the earlier ones have recorded
      by_cases hbegins : beat.Begins library place
      · exact .of_begins hbegins hframe (hbeat.begins place frame hframe hbegins)
      · have houtlasts : beat.Outlasts place := not_not.1 fun hnew => hbegins (.inl hnew)
        obtain ⟨before, hbefore⟩ : ∃ before, beat.before.frameAt? place = some before :=
          ⟨_, List.getElem?_eq_getElem (by simpa using houtlasts.before)⟩
        have htraced := ih hearlier (fun other hother => haccounts other (by simp [hother])) hbefore
        exact htraced.concat hbegins hbefore hframe
          (hbeat.logs place before frame hbefore hframe hbegins)

namespace Engine

/-- The records of a transaction are the trace of what its frame has executed.  In every
conversation, and in the middle of its turns as well, the transaction of every frame began in one of
the beats, and since then it has got, in order, one record for each step that its frame has
executed, with the id and the kind of the step: for each question when it was taken off the frame
and not when it was asked, for each attempt of a tool call, and for every other step.  Nothing else
has been added to it. -/
theorem records_trace_execution (engine : Engine) (userId id : String) (exchanges : List Exchange) :
    let first := engine.startSession userId id
    (∀ place frame, (engine.after first exchanges).levels.frameAt? place = some frame →
      frame.TracedIn engine.library (engine.history first exchanges) place) ∧
    ∀ past last, past ++ [last] <+: engine.history first exchanges → ∀ place frame,
      last.after.frameAt? place = some frame →
        frame.TracedIn engine.library (past ++ [last]) place := by
  intro first
  have hfirst : engine.Reachable first := .start userId id
  have hfollows := history_follows engine hfirst.inOrder exchanges
  have haccounts := history_accounts engine hfirst.inOrder exchanges
  refine ⟨fun place frame hframe => hfollows.traced haccounts rfl hframe, ?_⟩
  rintro past last ⟨later, hlater⟩ place frame hframe
  rw [← hlater] at hfollows haccounts
  obtain ⟨middle, hpast, -⟩ := hfollows.split
  obtain ⟨-, rfl⟩ := hpast.of_concat
  exact hpast.traced (fun beat hbeat => haccounts beat (List.mem_append_left _ hbeat)) rfl hframe

end Engine

namespace Kiosk

/-- The desk without the tool that seats guests: the flow that is called instead asks something. -/
def unattended : Engine :=
  { desk with registry := ⟨[]⟩ }

/-- What the guest answered, the branch, the call of the tool and that of the other flow are on
record, and what the other flow asks is not. -/
theorem seat_refused_traced : ∃ frame : Frame,
    frame.TracedIn unattended.library (unattended.history
      (unattended.startSession "guest" "desk") (["Table", "inside"].map guest)) 0 ∧
    frame.transaction.steps.map (fun record => (record.stepId, record.stepType)) =
      [("question", "SAY-GET"), ("where", "SWITCH"), ("seat", "CALL-TOOL"),
        ("instead", "FLOW")] := by
  have hrecords : (((unattended.after (unattended.startSession "guest" "desk")
      (["Table", "inside"].map guest)).levels.frameAt? 0).any fun frame =>
        decide (frame.transaction.steps.map (fun record => (record.stepId, record.stepType)) =
          [("question", "SAY-GET"), ("where", "SWITCH"), ("seat", "CALL-TOOL"),
            ("instead", "FLOW")])) = true := by decide +kernel
  obtain ⟨frame, hframe, hshown⟩ := (Option.any_eq_true _ _).1 hrecords
  exact ⟨frame, (unattended.records_trace_execution "guest" "desk" _).1 0 frame hframe,
    of_decide_eq_true hshown⟩

end Kiosk

end Parley
