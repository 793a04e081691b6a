import Mathlib.Data.List.Induction
import Parley.Proofs.LevelShapes
import Parley.Proofs.Utterances

/-!
# Marks of resumption

A frame that goes on after an interruption is marked.  It has the mark until it asks a
question or is handed to another flow, however many turns that takes, and no other
frame can take the mark from it.  At the end of a turn no frame on top of its level is
marked, so a frame that still is stands beneath a flow that it has called.
-/

set_option autoImplicit false

namespace Parley

/-! ## Steps -/

/-- The step takes the mark from its frame: it asks, or it hands the frame to another flow. -/
def Step.Unmarks (library : Library) (step : Step) : Prop :=
  step.kind = .ask ∨ step.Swaps library

namespace Stage

variable {stage : Stage} {scene : Scene}

section Call

variable {id : String} {call : ToolCall} {onFail : Option Step}

theorem callFailed_mark (hactive : scene.frame.transaction.state = .active)
    (failure : ToolFailure) (journal : Journal) :
    (stage.callFailed id call onFail failure
      { scene with journal := journal }).scene.frame.justResumed = scene.frame.justResumed := by
  simp only [callFailed]
  split
  · rw [callAgain, Scene.logged_of_active (by simpa using hactive)]
    rfl
  · rw [callGivenUp, Scene.logged_of_active (by simpa using hactive)]
    cases onFail with
    | none => simp [Scene.outcome, Frame.record, Frame.popStep, Frame.log]
    | some handler =>
        simp [Scene.outcome, Frame.record, Frame.popStep, Frame.pushStep, Frame.log]

theorem callTool_mark (hactive : scene.frame.transaction.state = .active) :
    (stage.callTool id call onFail scene).scene.frame.justResumed = scene.frame.justResumed := by
  unfold callTool
  split
  · exact callFailed_mark hactive _ scene.journal
  · split
    · rw [callSucceeded,
        Scene.logged_of_active (by simpa [Frame.record, Frame.popStep] using hactive)]
      simp [Scene.outcome, Frame.record, Frame.popStep, Frame.log]
    · exact callFailed_mark hactive _ _

end Call

theorem takeBranch_mark (hactive : scene.frame.transaction.state = .active) (kind : StepKind)
    (id : String) (branch : Option Step) (missing : String) :
    (takeBranch kind id branch missing scene).scene.frame.justResumed =
      scene.frame.justResumed := by
  cases branch with
  | none => rfl
  | some step =>
      rw [takeBranch, Scene.finished_of_active hactive]
      rfl

theorem callFlow_mark (hactive : scene.frame.transaction.state = .active) {id key : String}
    {callType : CallType}
    (hkept : ¬Step.Swaps stage.engine.library (.callFlow id key callType)) :
    (stage.callFlow id key callType scene).scene.frame.justResumed = scene.frame.justResumed := by
  unfold callFlow
  cases hflow : stage.engine.library.get? key with
  | none =>
      cases callType with
      | reboot => rfl
      | call | replace =>
          simp only [unknownFlow]
          rw [Scene.finished_of_active hactive]
          rfl
  | some flow =>
      cases callType with
      | reboot => rfl
      | call =>
          simp only [call]
          split
          · rfl
          · rw [Scene.finished_of_active hactive]
            rfl
      | replace => exact absurd ⟨id, key, flow, rfl, hflow⟩ hkept

end Stage

section Perform

variable {stage : Stage} {scene : Scene} {step : Step}

/-- A step that neither asks nor hands its frame to another flow leaves the mark as it is. -/
theorem perform_keeps_mark (hactive : scene.frame.transaction.state = .active)
    (hkept : ¬step.Unmarks stage.engine.library) :
    (Turn.perform stage step scene).scene.frame.justResumed = scene.frame.justResumed := by
  obtain ⟨hkind, hswaps⟩ := not_or.1 hkept
  cases step with
  | say id message =>
      simp only [Turn.perform, Stage.say]
      rw [Scene.finished_of_active (by simpa [Frame.record] using hactive)]
      rfl
  | ask id message target => exact absurd rfl hkind
  | set id target value =>
      simp only [Turn.perform, Stage.set]
      rw [Scene.finished_of_active (by simpa using hactive)]
      rfl
  | switch id subject branches => exact Stage.takeBranch_mark hactive _ _ _ _
  | choose id branches => exact Stage.takeBranch_mark hactive _ _ _ _
  | callTool id call onFail => exact Stage.callTool_mark hactive
  | callFlow id key callType => exact Stage.callFlow_mark hactive hswaps

/-- A frame that asks, or is handed to another flow, is not marked afterwards.  Taking an answer
would leave the mark, but a frame that waits for one has none. -/
theorem perform_unmarks (hactive : scene.frame.transaction.state = .active)
    (hwaiting : scene.frame.justResumed = true → scene.frame.pendingVariable = none)
    (hunmarks : step.Unmarks stage.engine.library) :
    (Turn.perform stage step scene).scene.frame.justResumed = false := by
  rcases hunmarks with hask | ⟨id, key, flow, rfl, hflow⟩
  · cases step with
    | ask id message receiver =>
        simp only [Turn.perform, Stage.ask]
        split
        · rename_i target input hpending hsaid
          rw [Stage.answer, Scene.finished_of_active (by simpa using hactive)]
          show scene.frame.justResumed = false
          rw [Bool.eq_false_iff]
          intro hmarked
          cases hpending.symm.trans (hwaiting hmarked)
        · cases receiver with
          | some target => rfl
          | none =>
              simp only [Stage.prompt]
              rw [Scene.finished_of_active (by simpa [Frame.record] using hactive)]
              rfl
    | _ => cases hask
  · have hlogged : ∀ record,
        (scene.popStep.logging record).frame.transaction.state = .active := fun _ => hactive
    simp only [Turn.perform, Stage.callFlow, hflow, Stage.replace]
    rw [Scene.finished_of_active hactive]
    simp only [Transaction.ifOpen, Transaction.isActive_iff.2 (hlogged _), if_true,
      Transaction.fail, Transaction.finish_of_active (hlogged _)]
    rfl

end Perform

/-- Only a frame that is handed to another flow gets another name. -/
theorem Effect.flowName {stage : Stage} {step : Step} {scene : Scene} {outcome : Outcome}
    (h : Effect stage step scene outcome) (hkept : ¬step.Swaps stage.engine.library) :
    outcome.scene.frame.flowName = scene.frame.flowName := by
  cases h with
  | proceeded after pushed hkind hframe => exact hframe.flow
  | answered after target input hkind hwaiting hsaid hframe => exact hframe.flow
  | asked after id message target hstep hready hframe => exact hframe.flow
  | remarked after id message hstep hready hframe => exact hframe.flow
  | gaveUp after hkind hframe => exact hframe.flow
  | entered after flow initiator hkind hroom hframe => exact hframe.flow
  | replaced after flow initiator closed hkind hframe hclosed hreason hinput htarget =>
      obtain ⟨id, key, hstep, hflow⟩ := htarget
      exact absurd ⟨id, key, flow, hstep, hflow⟩ hkept
  | rebooted after id key flow hstep hflow hframe => rw [hframe]
  | failed error hkind herror => rfl

/-- Only a question makes the turn wait for an answer. -/
theorem Effect.kind_of_await {stage : Stage} {step : Step} {scene : Scene} {outcome : Outcome}
    (h : Effect stage step scene outcome) (hnext : outcome.next = .ok .await) :
    step.kind = .ask := by
  cases h with
  | asked after id message target hstep => rw [hstep]; rfl
  | remarked after id message hstep => rw [hstep]; rfl
  | _ => cases hnext

/-! ## Frames -/

theorem Frame.Alike.justResumed {before after : Frame} (h : before.Alike after) :
    after.justResumed = before.justResumed := by rw [h]

/-- A frame goes on with its mark, unless that is taken from it, and with the flow of that name. -/
structure Frame.Carries (unmarked : Prop) (before after : Frame) : Prop where
  mark : after.justResumed = true ↔ before.justResumed = true ∧ ¬unmarked
  name : ¬unmarked → after.flowName = before.flowName

namespace Frame.Carries

variable {unmarked : Prop} {before after : Frame}

theorem refl (frame : Frame) (hkept : ¬unmarked) : frame.Carries unmarked frame :=
  ⟨by simp [hkept], fun _ => rfl⟩

theorem congr {other : Prop} (h : before.Carries unmarked after) (hiff : unmarked ↔ other) :
    before.Carries other after :=
  propext hiff ▸ h

theorem of_alike (h : before.Alike after) (hkept : ¬unmarked) : before.Carries unmarked after :=
  ⟨by simp [h.justResumed, hkept], fun _ => h.flowName⟩

/-- A frame that is interrupted has its mark still. -/
theorem of_interrupted (h : before.Alike after) (hkept : ¬unmarked) :
    before.Carries unmarked (Turn.paused after) :=
  ⟨(of_alike h hkept).mark, (of_alike h hkept).name⟩

/-- What a step does to the mark of its frame. -/
theorem of_perform {stage : Stage} {scene : Scene} (step : Step)
    (hactive : scene.frame.transaction.state = .active)
    (hwaiting : scene.frame.justResumed = true → scene.frame.pendingVariable = none) :
    scene.frame.Carries (step.Unmarks stage.engine.library)
      (Turn.perform stage step scene).scene.frame := by
  constructor
  · by_cases hunmarks : step.Unmarks stage.engine.library
    · simp [perform_unmarks hactive hwaiting hunmarks, hunmarks]
    · simp [perform_keeps_mark hactive hunmarks, hunmarks]
  · intro hkept
    exact (perform_effect step hactive).flowName fun hswaps => hkept (.inr hswaps)

end Frame.Carries

/-- What becomes of the marks of frames, the innermost first, while no level is left: frames are
taken from the top or come on top, without a mark, and the frame that runs carries its own, unless
that is taken from it. -/
inductive Marking (unmarked : Prop) : List Frame → List Frame → Prop where
  | dropped (gone rest : List Frame) (hkept : gone = [] → ¬unmarked) :
      Marking unmarked (gone ++ rest) rest
  | kept (frame frame' : Frame) (rest : List Frame) (hcarries : frame.Carries unmarked frame') :
      Marking unmarked (frame :: rest) (frame' :: rest)
  | entered (top frame frame' : Frame) (rest : List Frame) (hfresh : top.justResumed = false)
      (hcarries : frame.Carries unmarked frame') :
      Marking unmarked (frame :: rest) (top :: frame' :: rest)
  | started (top : Frame) (rest : List Frame) (hfresh : top.justResumed = false)
      (hkept : ¬unmarked) : Marking unmarked rest (top :: rest)

namespace Marking

variable {unmarked : Prop} {before after : List Frame} {place : Nat} {a b : Frame}

/-- A frame whose place stays occupied carries its mark; only that of the frame that runs can be
taken. -/
theorem carries (h : Marking unmarked before after) (ha : before.reverse[place]? = some a)
    (hb : after.reverse[place]? = some b) :
    a.Carries (before.length = place + 1 ∧ unmarked) b := by
  have hunder : ∀ {frame frame' : Frame} {rest : List Frame}, frame.Carries unmarked frame' →
      (frame :: rest).reverse[place]? = some a → (frame' :: rest).reverse[place]? = some b →
      a.Carries ((frame :: rest).length = place + 1 ∧ unmarked) b := by
    intro frame frame' rest hcarries ha hb
    rcases place_cons_cons ha hb with ⟨hbelow, rfl⟩ | ⟨htop, rfl, rfl⟩
    · refine .refl _ fun hown => ?_
      have hlength := hown.1
      rw [List.length_cons] at hlength
      omega
    · exact hcarries.congr (by simp [htop])
  cases h with
  | dropped gone rest hkept =>
      have hsame := place_append gone hb
      cases ha.symm.trans hsame
      refine .refl _ fun hown => hkept ?_ hown.2
      have hplace := place_lt hb
      have hlength := hown.1
      rw [List.length_append] at hlength
      exact List.length_eq_zero_iff.1 (by omega)
  | kept frame frame' rest hcarries => exact hunder hcarries ha hb
  | entered top frame frame' rest hfresh hcarries =>
      rcases place_cons hb with hb | ⟨htop, -⟩
      · exact hunder hcarries ha hb
      · have hplace := place_lt ha
        simp only [List.length_cons] at hplace htop
        omega
  | started top rest hfresh hkept =>
      have hsame := place_append [top] ha
      cases hsame.symm.trans hb
      exact .refl _ fun hown => hkept hown.2

/-- A frame at a place that was not occupied before is not marked. -/
theorem fresh (h : Marking unmarked before after) (hfree : before.length ≤ place)
    (hb : after.reverse[place]? = some b) : b.justResumed = false := by
  have hplace := place_lt hb
  cases h with
  | dropped gone rest hkept =>
      rw [List.length_append] at hfree
      omega
  | kept frame frame' rest hcarries =>
      simp only [List.length_cons] at hfree hplace
      omega
  | entered top frame frame' rest hfresh hcarries =>
      rcases place_cons hb with hb | ⟨-, rfl⟩
      · have hlower := place_lt hb
        simp only [List.length_cons] at hfree hlower
        omega
      · exact hfresh
  | started top rest hfresh hkept =>
      rcases place_cons hb with hb | ⟨-, rfl⟩
      · have hlower := place_lt hb
        omega
      · exact hfresh

/-- A frame that is marked was marked before, with the same flow. -/
theorem marked_before (h : Marking unmarked before after) (hb : after.reverse[place]? = some b)
    (hmarked : b.justResumed = true) :
    ∃ older, before.reverse[place]? = some older ∧ older.justResumed = true ∧
      older.flowName = b.flowName := by
  by_cases hfree : before.length ≤ place
  · rw [h.fresh hfree hb] at hmarked
    cases hmarked
  · have hplace : place < before.reverse.length := by simpa using hfree
    have holder := List.getElem?_eq_getElem hplace
    have hcarries := h.carries holder hb
    obtain ⟨hbefore, hkept⟩ := hcarries.mark.1 hmarked
    exact ⟨_, holder, hbefore, (hcarries.name hkept).symm⟩

end Marking

/-! ## Beats -/

namespace Beat

/-- In the beat the frame at the place asks, or is handed to another flow. -/
def Unmarks (library : Library) (beat : Beat) (place : Nat) : Prop :=
  beat.serves place = true ∧ ∃ step, beat.dispatched = some step ∧ step.Unmarks library

/-- How a beat deals with the marks of frames. -/
inductive Marks (library : Library) (beat : Beat) : Prop where
  /-- Everything starts anew. -/
  | rebooted (id key : String) (hreboot : beat.dispatched = some (.callFlow id key .reboot))
      (hfresh : ∀ frame ∈ beat.after.frames, frame.justResumed = false)
  /-- Frames may go and come, and the others carry their marks. -/
  | carried (hquiet : ∀ id key, beat.dispatched ≠ some (.callFlow id key .reboot))
      (hcount : beat.before.count ≤ beat.after.count)
      (hmarking : Marking (∃ step, beat.dispatched = some step ∧ step.Unmarks library)
        beat.before.frames beat.after.frames)
  /-- The innermost level, without frames, is left, and a frame that was interrupted goes on. -/
  | resumed (frame frame' : Frame) (callers : Level) (below : List Level)
      (hnone : beat.dispatched = none)
      (hbefore : beat.before = ⟨[], (frame :: callers) :: below⟩)
      (hafter : beat.after = ⟨frame' :: callers, below⟩)
      (hmarked : frame'.justResumed = true) (hname : frame'.flowName = frame.flowName)

variable {library : Library} {beat : Beat} {place : Nat} {before after : Frame}

theorem unmarks_iff : beat.Unmarks library place ↔ beat.before.frames.length = place + 1 ∧
    ∃ step, beat.dispatched = some step ∧ step.Unmarks library := by
  constructor
  · rintro ⟨hserves, hstep⟩
    simp only [serves, Bool.and_eq_true, beq_iff_eq] at hserves
    exact ⟨hserves.2, hstep⟩
  · rintro ⟨hplace, step, hstep, hunmarks⟩
    exact ⟨by simp [serves, hstep, hplace], step, hstep, hunmarks⟩

/-- Of the frames of a level that goes on, the one on top is resumed. -/
theorem resumes_iff {frame frame' : Frame} {callers : Level} {below : List Level}
    (hbefore : beat.before = ⟨[], (frame :: callers) :: below⟩)
    (hafter : beat.after = ⟨frame' :: callers, below⟩) :
    beat.Resumes place ↔ place = (callers ++ below.flatten).length := by
  have hcount : beat.after.count < beat.before.count := by
    rw [hbefore, hafter]
    exact Nat.lt_succ_self _
  have hlength : beat.before.frames.length = (callers ++ below.flatten).length + 1 := by
    rw [hbefore]
    rfl
  simp only [Resumes, hcount, hlength, true_and, Nat.add_right_cancel_iff, eq_comm]

/-- A frame that outlasts a beat is marked afterwards if it has just been resumed, or if it was
marked before and neither asked nor was handed to another flow. -/
theorem Marks.mark_iff (h : beat.Marks library) (houtlasts : beat.Outlasts place)
    (hbefore : beat.before.frameAt? place = some before)
    (hafter : beat.after.frameAt? place = some after) :
    after.justResumed = true ↔
      beat.Resumes place ∨ before.justResumed = true ∧ ¬beat.Unmarks library place := by
  rw [unmarks_iff]
  cases h with
  | rebooted id key hreboot hfresh => exact absurd hreboot (houtlasts.noReboot id key)
  | carried hquiet hcount hmarking =>
      have hstays : ¬beat.Resumes place := fun hresumes =>
        absurd hresumes.1 (Nat.not_lt.2 hcount)
      rw [(hmarking.carries hbefore hafter).mark]
      simp [hstays]
  | resumed frame frame' callers below hnone hfirst hlast hmarked hname =>
      rw [resumes_iff hfirst hlast]
      rw [hfirst] at hbefore
      rw [hlast] at hafter
      rcases place_cons_cons hbefore hafter with ⟨hbelow, rfl⟩ | ⟨htop, rfl, rfl⟩
      · have hother : place ≠ (callers ++ below.flatten).length := Nat.ne_of_lt hbelow
        simp only [hother, hnone, reduceCtorEq, false_and, exists_false, and_false, false_or,
          not_false_eq_true, and_true]
      · exact iff_of_true hmarked (.inl htop)

/-- A frame that does not outlast a beat, but is there afterwards, has just been started. -/
theorem Marks.fresh (h : beat.Marks library) (hnew : ¬beat.Outlasts place)
    (hafter : beat.after.frameAt? place = some after) : after.justResumed = false := by
  have hplace : place < beat.after.frames.length := place_lt hafter
  cases h with
  | rebooted id key hreboot hfresh =>
      exact hfresh after (List.mem_reverse.1 (List.mem_of_getElem? hafter))
  | carried hquiet hcount hmarking =>
      refine hmarking.fresh (Nat.not_lt.1 fun hbefore => hnew ?_) hafter
      exact ⟨hbefore, hplace, hquiet⟩
  | resumed frame frame' callers below hnone hfirst hlast hmarked hname =>
      refine absurd ⟨?_, hplace, by simp [hnone]⟩ hnew
      rw [hlast] at hplace
      rw [hfirst]
      exact hplace

/-- A frame that is marked was marked before, with the same flow, or it has just been resumed. -/
theorem Marks.marked_before (h : beat.Marks library)
    (hafter : beat.after.frameAt? place = some after) (hmarked : after.justResumed = true) :
    (∃ older, beat.before.frameAt? place = some older ∧ older.justResumed = true ∧
        older.flowName = after.flowName) ∨
      ∃ older callers below, beat.before = ⟨[], (older :: callers) :: below⟩ ∧
        older.flowName = after.flowName := by
  cases h with
  | rebooted id key hreboot hfresh =>
      rw [hfresh after (List.mem_reverse.1 (List.mem_of_getElem? hafter))] at hmarked
      cases hmarked
  | carried hquiet hcount hmarking => exact .inl (hmarking.marked_before hafter hmarked)
  | resumed frame frame' callers below hnone hfirst hlast hresumed hname =>
      rw [hlast] at hafter
      rcases place_cons hafter with hbelow | ⟨-, rfl⟩
      · refine .inl ⟨after, ?_, hmarked, rfl⟩
        rw [hfirst]
        exact place_append [frame] hbelow
      · exact .inr ⟨frame, callers, below, hfirst, hname.symm⟩

end Beat

/-! ## Rounds -/

namespace Levels

/-- Of the frames on top of their levels none is marked, except that the one that runs may be while
it does not wait for an answer. -/
structure MarksOnTop (levels : Levels) : Prop where
  top : ∀ frame ∈ levels.top?, frame.justResumed = true → frame.pendingVariable = none
  suspended : ∀ level ∈ levels.suspended, ∀ frame ∈ level.head?, frame.justResumed = false

/-- No frame on top of its level is marked. -/
def TopsUnmarked (levels : Levels) : Prop :=
  ∀ level ∈ levels.inward, ∀ frame ∈ level.head?, frame.justResumed = false

theorem topsUnmarked_mk {current : Level} {suspended : List Level} :
    (Levels.mk current suspended).TopsUnmarked ↔
      (∀ frame ∈ current.head?, frame.justResumed = false) ∧
      ∀ level ∈ suspended, ∀ frame ∈ level.head?, frame.justResumed = false := by
  simp [TopsUnmarked, inward]

theorem topsUnmarked_nil {suspended : List Level} :
    (Levels.mk [] suspended).TopsUnmarked ↔
      ∀ level ∈ suspended, ∀ frame ∈ level.head?, frame.justResumed = false := by
  simp [topsUnmarked_mk]

theorem topsUnmarked_cons {frame : Frame} {callers : Level} {suspended : List Level} :
    (Levels.mk (frame :: callers) suspended).TopsUnmarked ↔ frame.justResumed = false ∧
      ∀ level ∈ suspended, ∀ frame ∈ level.head?, frame.justResumed = false := by
  simp [topsUnmarked_mk]

theorem TopsUnmarked.marksOnTop {levels : Levels} (h : levels.TopsUnmarked) :
    levels.MarksOnTop := by
  obtain ⟨hcurrent, hsuspended⟩ := topsUnmarked_mk.1 h
  refine ⟨fun frame htop hmarked => ?_, hsuspended⟩
  rw [hcurrent frame htop] at hmarked
  cases hmarked

/-- If no frame waits, it matters only which levels are below. -/
theorem Quiet.marksOnTop {levels : Levels} (h : levels.Quiet) {older : Levels}
    (holder : older.MarksOnTop) (hbelow : levels.suspended <:+ older.suspended) :
    levels.MarksOnTop := by
  refine ⟨fun frame htop _ => h frame ?_, fun level hlevel => ?_⟩
  · exact mem_frames.2 (.inl (List.mem_of_head? htop))
  · exact holder.suspended level (hbelow.subset hlevel)

end Levels

namespace Turn

variable {engine : Engine} {turn : Turn}

theorem levels_abort (engine : Engine) (turn : Turn) (error : EngineError) :
    (turn.abort engine error).session.levels = ⟨[], turn.session.levels.suspended⟩ := rfl

/-- A reboot leaves no frame that is marked. -/
theorem restart_unmarked (turn : Turn) (scene : Scene) (flow : Option Definition) :
    ∀ frame ∈ (turn.settle ⟨scene, .ok (.restart flow)⟩).1.session.levels.frames,
      frame.justResumed = false := by
  cases flow with
  | none => exact List.forall_mem_nil _
  | some flow =>
      intro frame hframe
      obtain rfl := List.mem_singleton.1 hframe
      rfl

section Performed

variable {frame : Frame} {callers : Level} {suspended : List Level} {step : Step}

theorem settle_marking (hlevels : turn.session.levels = ⟨frame :: callers, suspended⟩)
    (hactive : frame.transaction.state = .active)
    (hwaiting : frame.justResumed = true → frame.pendingVariable = none) (vars : Fields)
    (hnext : ∀ flow, (perform (turn.stage engine) step (turn.scene frame vars)).next ≠
      .ok (.restart flow)) :
    Marking (step.Unmarks engine.library) turn.session.levels.frames
      (turn.settle (perform (turn.stage engine) step
        (turn.scene frame vars))).1.session.levels.frames := by
  have hcarries : (turn.scene frame vars).frame.Carries
      (step.Unmarks (turn.stage engine).engine.library)
      (perform (turn.stage engine) step (turn.scene frame vars)).scene.frame :=
    .of_perform step hactive hwaiting
  have heffect : Effect (turn.stage engine) step (turn.scene frame vars)
      (perform (turn.stage engine) step (turn.scene frame vars)) := perform_effect step hactive
  rw [levels_settle hlevels _ hnext, hlevels]
  generalize perform (turn.stage engine) step (turn.scene frame vars) = outcome
    at hcarries heffect hnext
  obtain ⟨scene, next⟩ := outcome
  match next with
  | .ok .proceed | .ok .await | .error _ => exact .kept frame scene.frame _ hcarries
  | .ok .leave => exact .dropped [frame] _ (by simp)
  | .ok (.enter top) =>
      obtain ⟨flow, transaction, hstarted, -⟩ := heffect.enter rfl
      exact .entered top frame scene.frame _ (by rw [hstarted]; rfl) hcarries
  | .ok (.restart flow) => exact absurd rfl (hnext flow)

end Performed

/-- A round that neither reboots nor leaves a level deals with marks as its step does, and may drop
the frames of the innermost level. -/
theorem round_marking (horder : turn.session.InOrder) (hmarks : turn.session.levels.MarksOnTop)
    (hquiet : ¬turn.Reboots engine) (hstays : turn.task engine ≠ .resume) :
    turn.session.levels.count ≤ (turn.round engine).turn.session.levels.count ∧
      Marking (∃ step, (turn.task engine).step? = some step ∧ step.Unmarks engine.library)
        turn.session.levels.frames (turn.round engine).turn.session.levels.frames := by
  have hdone := fun progress (h : (turn.step engine).2 = .ok progress) => (round_of_ok h).1
  have hfailed := fun error (h : (turn.step engine).2 = .error error) => round_of_error h
  have hmove := step_move engine horder
  generalize hstep : turn.step engine = result at hmove hdone hfailed
  cases hmove with
  | idled hlevels =>
      rw [hdone .done rfl, hlevels]
      refine ⟨Nat.le_refl _, .dropped [] [] fun _ => ?_⟩
      simp [task, hlevels, Levels.top?, Levels.empty, Task.step?]
  | resumed frame callers below hlevels =>
      exact absurd (by simp [task, hlevels, Levels.top?]) hstays
  | exhausted frame callers suspended hlevels hlimit =>
      have hcharged : turn.charged.session.levels = ⟨frame :: callers, suspended⟩ := hlevels
      rw [hfailed _ rfl, levels_abort, hcharged, hlevels]
      exact ⟨Nat.le_refl _, .dropped (frame :: callers) _ (by simp)⟩
  | finished frame callers suspended hlevels hlimit hsteps =>
      rw [hdone .running rfl, hlevels]
      exact ⟨Nat.le_refl _, .dropped [frame] _ (by simp)⟩
  | performed frame callers suspended step rest vars outcome hlevels hlimit hsteps hvars heffect =>
      have hcharged : turn.charged.session.levels = ⟨frame :: callers, suspended⟩ := hlevels
      have htop : turn.session.levels.top? = some frame := by rw [hlevels]; rfl
      have hactive := horder.active_of_top htop
      have htask : turn.task engine = .dispatch frame step :=
        task_eq_dispatch.2 ⟨htop, hlimit, rest, hsteps⟩
      have hown : (∃ other, (turn.task engine).step? = some other ∧
          other.Unmarks engine.library) ↔ step.Unmarks engine.library := by
        simp [htask, Task.step?]
      have hperformed : Effect (turn.charged.stage engine) step (turn.charged.scene frame vars)
          (perform (turn.charged.stage engine) step (turn.charged.scene frame vars)) :=
        perform_effect step hactive
      have hnext := not_restart hquiet hlevels hlimit hsteps hperformed
      have hmarking := settle_marking hcharged hactive (hmarks.top frame htop) vars hnext
      have hlevel := levels_settle hcharged _ hnext
      rw [hstep.symm.trans (step_of_next hlevels hvars hlimit hsteps)] at hdone hfailed
      rw [hown]
      generalize perform (turn.charged.stage engine) step (turn.charged.scene frame vars) = after
        at hdone hfailed hnext hmarking hlevel
      obtain ⟨scene, next⟩ := after
      cases next with
      | error error =>
          rw [hfailed error rfl, levels_abort, hlevel, hlevels]
          exact ⟨Nat.le_refl _, .dropped (frame :: callers) _ (by simp)⟩
      | ok next =>
          obtain ⟨progress, hprogress⟩ : ∃ progress,
              (turn.charged.settle ⟨scene, .ok next⟩).2 = .ok progress := ⟨_, rfl⟩
          rw [hdone progress hprogress]
          refine ⟨?_, hmarking⟩
          rw [hlevel, hlevels]
          exact Nat.le_refl _

/-- How a round deals with marks. -/
theorem beat_marks (horder : turn.session.InOrder) (hmarks : turn.session.levels.MarksOnTop) :
    (turn.beat engine).Marks engine.library := by
  by_cases hreboots : turn.Reboots engine
  · obtain ⟨scene, flow, hstep⟩ := step_of_reboots horder hreboots
    obtain ⟨id, key, hreboot⟩ := hreboots
    refine .rebooted id key hreboot ?_
    show ∀ frame ∈ (turn.round engine).turn.session.levels.frames, frame.justResumed = false
    rw [levels_of_restart hstep]
    exact restart_unmarked turn.charged scene flow
  · by_cases hresume : turn.task engine = .resume
    · obtain ⟨frame, transaction, callers, below, hbefore, hafter⟩ :=
        (round_leftLevel horder hresume).levels
      exact .resumed frame _ callers below (by simp [beat, hresume, Task.step?]) hbefore hafter rfl
        rfl
    · obtain ⟨hcount, hmarking⟩ := round_marking horder hmarks hreboots hresume
      exact .carried (fun id key hreboot => hreboots ⟨id, key, hreboot⟩) hcount hmarking

/-- When a turn waits for an answer, the frame that has asked is not marked. -/
theorem unmarked_of_blocked (horder : turn.session.InOrder)
    (hmarks : turn.session.levels.MarksOnTop) (h : (turn.step engine).2 = .ok .blocked) :
    ∀ frame ∈ (turn.step engine).1.session.levels.top?, frame.justResumed = false := by
  have hmove := step_move engine horder
  generalize hstep : turn.step engine = result at hmove h
  cases hmove with
  | idled hlevels => cases h
  | resumed frame callers below hlevels => cases h
  | exhausted frame callers suspended hlevels hlimit => cases h
  | finished frame callers suspended hlevels hlimit hsteps => cases h
  | performed frame callers suspended step rest vars outcome hlevels hlimit hsteps hvars heffect =>
      have hcharged : turn.charged.session.levels = ⟨frame :: callers, suspended⟩ := hlevels
      have htop : turn.session.levels.top? = some frame := by rw [hlevels]; rfl
      have hactive : (turn.charged.scene frame vars).frame.transaction.state = .active :=
        horder.active_of_top htop
      have hperformed : Effect (turn.charged.stage engine) step (turn.charged.scene frame vars)
          (perform (turn.charged.stage engine) step (turn.charged.scene frame vars)) :=
        perform_effect step hactive
      rw [hstep.symm.trans (step_of_next hlevels hvars hlimit hsteps)] at h ⊢
      have hawait := settle_blocked h
      have hasks : step.Unmarks (turn.charged.stage engine).engine.library :=
        .inl (hperformed.kind_of_await hawait)
      have hunmarked := perform_unmarks hactive (hmarks.top frame htop) hasks
      rw [levels_settle hcharged _ (by simp [hawait]), hawait]
      intro other hother
      cases hother
      exact hunmarked

theorem ended_topsUnmarked {final : Turn} (horder : turn.session.InOrder)
    (hmarks : turn.session.levels.MarksOnTop) (h : turn.round engine = .ended final) :
    final.session.levels.TopsUnmarked := by
  have hbelow := ended_suspended horder h
  refine Levels.topsUnmarked_mk.2 ⟨?_, fun level hlevel => ?_⟩
  · rcases round_ended h with hblocked | ⟨idle, hdone, rfl⟩ | ⟨failed, error, hfailed, -, rfl⟩
    · have hunmarked : ∀ frame ∈ (turn.step engine).1.session.levels.top?,
          frame.justResumed = false := unmarked_of_blocked horder hmarks (by rw [hblocked])
      rwa [hblocked] at hunmarked
    · show ∀ frame ∈ (idle.concluded engine).session.levels.top?, frame.justResumed = false
      simp [(levels_concluded engine idle).1, levels_of_done horder hdone, Levels.empty, Levels.top?]
    · show ∀ frame ∈ (failed.abort engine error).session.levels.top?, frame.justResumed = false
      simp [levels_abort, Levels.top?]
  · exact hmarks.suspended level (hbelow.subset hlevel)

/-- In no round a frame is marked that waits, and at the end no frame on top of its level is. -/
theorem Runs.marksOnTop {trail : List Turn} {final : Turn} (hrun : Runs engine turn trail final)
    (horder : turn.session.InOrder) (hasks : turn.session.levels.AsksOnTop)
    (hmarks : turn.session.levels.MarksOnTop) :
    (∀ round ∈ trail, round.session.levels.MarksOnTop) ∧ final.session.levels.TopsUnmarked := by
  induction hrun with
  | last hended =>
      refine ⟨fun round hround => ?_, ended_topsUnmarked horder hmarks hended⟩
      obtain rfl := List.mem_singleton.1 hround
      exact hmarks
  | more honward hrest ih =>
      have hquiet := round_quiet horder hasks honward
      have hnext := hquiet.marksOnTop hmarks (round_suspended horder honward)
      obtain ⟨hlater, hfinal⟩ := ih (round_inOrder horder honward) hquiet.asksOnTop hnext
      exact ⟨List.forall_mem_cons.2 ⟨hmarks, hlater⟩, hfinal⟩

end Turn

/-! ## How turns begin -/

section Begin

variable {library : Library} {before after : Levels}

theorem Begun.topsUnmarked (h : Begun library before after) (hbefore : before.TopsUnmarked) :
    after.TopsUnmarked := by
  cases h with
  | kept frame frame' callers suspended hlevels halike =>
      subst hlevels
      obtain ⟨hframe, hothers⟩ := Levels.topsUnmarked_cons.1 hbefore
      exact Levels.topsUnmarked_cons.2 ⟨halike.justResumed.trans hframe, hothers⟩
  | cancelled frame callers suspended hlevels =>
      subst hlevels
      exact Levels.topsUnmarked_nil.2 (Levels.topsUnmarked_cons.1 hbefore).2
  | interrupted frame frame' callers suspended key flow scope transaction hlevels halike hflow =>
      subst hlevels
      obtain ⟨hframe, hothers⟩ := Levels.topsUnmarked_cons.1 hbefore
      refine Levels.topsUnmarked_cons.2 ⟨rfl, List.forall_mem_cons.2 ⟨?_, hothers⟩⟩
      rintro top ⟨⟩
      exact halike.justResumed.trans hframe
  | welcomed suspended key flow scope transaction hlevels hflow =>
      subst hlevels
      exact Levels.topsUnmarked_cons.2 ⟨rfl, (Levels.topsUnmarked_mk.1 hbefore).2⟩

/-- When a turn begins, a frame is interrupted with the mark it has, and one that starts has
none. -/
theorem Begun.marking {unmarked : Prop} (h : Begun library before after) (hkept : ¬unmarked) :
    before.count ≤ after.count ∧ Marking unmarked before.frames after.frames := by
  cases h with
  | kept frame frame' callers suspended hlevels halike =>
      subst hlevels
      exact ⟨Nat.le_refl _, .kept frame frame' _ (.of_alike halike hkept)⟩
  | cancelled frame callers suspended hlevels =>
      subst hlevels
      exact ⟨Nat.le_refl _, .dropped (frame :: callers) _ (by simp)⟩
  | interrupted frame frame' callers suspended key flow scope transaction hlevels halike hflow =>
      subst hlevels
      have hcarries : frame.Carries unmarked (Turn.paused frame') :=
        .of_interrupted halike hkept
      exact ⟨Nat.le_succ _, .entered _ frame _ _ rfl hcarries⟩
  | welcomed suspended key flow scope transaction hlevels hflow =>
      subst hlevels
      exact ⟨Nat.le_refl _, .started _ _ rfl hkept⟩

end Begin

section Touch

variable {before after : Session}

theorem Session.Touched.topsUnmarked (h : before.Touched after)
    (hbefore : before.levels.TopsUnmarked) : after.levels.TopsUnmarked := by
  rcases hlevels : before.levels with ⟨current, suspended⟩
  rw [hlevels] at hbefore
  cases current with
  | nil =>
      rw [h.levels_eq_of_nil hlevels]
      exact hbefore
  | cons frame callers =>
      obtain ⟨frame', halike, hafter⟩ := h.levels_eq hlevels
      obtain ⟨hframe, hothers⟩ := Levels.topsUnmarked_cons.1 hbefore
      rw [hafter]
      exact Levels.topsUnmarked_cons.2 ⟨halike.justResumed.trans hframe, hothers⟩

theorem Session.Touched.marking {unmarked : Prop} (h : before.Touched after) (hkept : ¬unmarked) :
    before.levels.count ≤ after.levels.count ∧
      Marking unmarked before.levels.frames after.levels.frames := by
  rcases hlevels : before.levels with ⟨current, suspended⟩
  cases current with
  | nil =>
      rw [h.levels_eq_of_nil hlevels]
      exact ⟨Nat.le_refl _, .dropped [] _ fun _ => hkept⟩
  | cons frame callers =>
      obtain ⟨frame', halike, hafter⟩ := h.levels_eq hlevels
      rw [hafter]
      exact ⟨Nat.le_refl _, .kept frame frame' _ (.of_alike halike hkept)⟩

end Touch

/-! ## Conversations -/

namespace Engine

variable {engine : Engine} {session : Session} {exchange : Exchange}

/-- Between exchanges no frame on top of its level is marked. -/
theorem Reachable.topsUnmarked (h : engine.Reachable session) : session.levels.TopsUnmarked := by
  induction h with
  | start userId id => exact Levels.topsUnmarked_nil.2 (List.forall_mem_nil _)
  | @next session hsession exchange ih =>
      rcases next_cases engine session exchange with
        htouched | ⟨turn, hrole, hopening, hnext, -⟩
      · exact htouched.topsUnmarked ih
      · have hordered := opening_inOrder engine hsession.inOrder hrole
        have hasks := opening_asks engine hsession.asksOnTop hrole
        have hopened := (opening_begun hrole hopening).topsUnmarked ih
        rw [hopening] at hordered hasks
        rw [hnext, (Turn.session_run engine turn).1]
        exact ((Turn.runs_drive engine turn).marksOnTop hordered hasks hopened.marksOnTop).2

/-- In no round of an exchange a frame that waits for an answer is marked, nor one on top of a level
below. -/
theorem trail_marksOnTop (h : engine.Reachable session) {turn : Turn}
    (hturn : turn ∈ engine.trail session exchange) : turn.session.levels.MarksOnTop := by
  obtain ⟨opened, hrole, hopening, htrail⟩ := running_of_trail hturn
  have hordered := opening_inOrder engine h.inOrder hrole
  have hasks := opening_asks engine h.asksOnTop hrole
  have hopened := (opening_begun hrole hopening).topsUnmarked h.topsUnmarked
  rw [hopening] at hordered hasks
  rw [htrail] at hturn
  exact ((Turn.runs_drive engine opened).marksOnTop hordered hasks hopened.marksOnTop).1 turn hturn

theorem history_marks (h : engine.Reachable session) (exchanges : List Exchange) :
    ∀ beat ∈ engine.history session exchanges, beat.Marks engine.library := by
  have hidle : ¬∃ step : Step, none = some step ∧ step.Unmarks engine.library := by simp
  intro beat hbeat
  obtain ⟨earlier, exchange, later, -, hexchange⟩ := exchange_of_beat hbeat
  have hsession := h.after earlier
  rcases cases_of_beat hsession.inOrder hexchange with
    ⟨turn, hrole, hopening, rfl⟩ | ⟨turn, hturn, hordered, rfl⟩ | ⟨htouched, rfl⟩
  · obtain ⟨hcount, hmarking⟩ := (opening_begun hrole hopening).marking hidle
    exact .carried nofun hcount hmarking
  · exact Turn.beat_marks hordered (trail_marksOnTop hsession hturn)
  · obtain ⟨hcount, hmarking⟩ := htouched.marking hidle
    exact .carried nofun hcount hmarking

end Engine

/-! ## Histories -/

/-- In one of the beats the frame at the place was resumed, and in none of the later ones it asked
or was handed to another flow. -/
def Beat.ResumedIn (library : Library) (beats : List Beat) (place : Nat) : Prop :=
  ∃ earlier beat later, beats = earlier ++ beat :: later ∧ beat.Resumes place ∧
    (∀ other ∈ beat :: later, other.Outlasts place) ∧
    ∀ other ∈ later, ¬other.Unmarks library place

/-- With one more beat, the frame has been resumed in that, or before and has not asked since. -/
theorem Beat.resumedIn_concat {library : Library} {beats : List Beat} {beat : Beat} {place : Nat} :
    Beat.ResumedIn library (beats ++ [beat]) place ↔ beat.Outlasts place ∧
      (beat.Resumes place ∨ Beat.ResumedIn library beats place ∧ ¬beat.Unmarks library place) := by
  constructor
  · rintro ⟨earlier, first, later, hsplit, hresumes, houtlasts, hkept⟩
    rcases List.eq_nil_or_concat later with rfl | ⟨between, last, rfl⟩
    · obtain ⟨-, hlast⟩ := List.append_inj' hsplit rfl
      cases hlast
      exact ⟨houtlasts _ List.mem_cons_self, .inl hresumes⟩
    · have hshorter : beats ++ [beat] = (earlier ++ first :: between) ++ [last] := by
        simpa using hsplit
      obtain ⟨rfl, hlast⟩ := List.append_inj' hshorter rfl
      cases hlast
      refine ⟨houtlasts _ (by simp), .inr ⟨⟨earlier, first, between, rfl, hresumes, ?_, ?_⟩,
        hkept _ (by simp)⟩⟩
      · exact fun other hother => houtlasts other (by simp at hother ⊢; tauto)
      · exact fun other hother => hkept other (by simp [hother])
  · rintro ⟨houtlasts, hresumes | ⟨⟨earlier, first, later, rfl, hresumes, hall, hkept⟩, hbeat⟩⟩
    · exact ⟨beats, beat, [], rfl, hresumes, by simpa using houtlasts, nofun⟩
    · refine ⟨earlier, first, later ++ [beat], by simp, hresumes, ?_, ?_⟩
      · rw [← List.cons_append]
        exact List.forall_mem_append.2 ⟨hall, by simpa using houtlasts⟩
      · exact List.forall_mem_append.2 ⟨hkept, by simpa using hbeat⟩

namespace Beats

variable {library : Library} {first last : Levels} {beats : List Beat}

theorem of_concat {beat : Beat} (h : Beats library first (beats ++ [beat]) last) :
    Beats library first beats beat.before ∧ last = beat.after := by
  obtain ⟨middle, hearlier, hlast⟩ := h.split
  obtain rfl := hlast.head rfl
  exact ⟨hearlier, hlast.getLast rfl⟩

/-- A frame is marked if and only if it has been resumed and has neither asked nor been handed to
another flow since. -/
theorem marked_iff (h : Beats library first beats last)
    (hmarks : ∀ beat ∈ beats, beat.Marks library) (hfirst : first.frames = []) {place : Nat}
    {frame : Frame} (hframe : last.frameAt? place = some frame) :
    frame.justResumed = true ↔ Beat.ResumedIn library beats place := by
  induction beats using List.reverseRecOn generalizing last frame with
  | nil =>
      obtain rfl := h.eq_of_nil
      simp [Levels.frameAt?, hfirst] at hframe
  | append_singleton beats beat ih =>
      obtain ⟨hearlier, rfl⟩ := h.of_concat
      have hbeat := hmarks beat (by simp)
      rw [Beat.resumedIn_concat]
      by_cases houtlasts : beat.Outlasts place
      · obtain ⟨before, hbefore⟩ : ∃ before, beat.before.frameAt? place = some before :=
          ⟨_, List.getElem?_eq_getElem (by simpa using houtlasts.before)⟩
        have hlast := ih hearlier (fun other hother => hmarks other (by simp [hother])) hbefore
        rw [hbeat.mark_iff houtlasts hbefore hframe, hlast]
        simp [houtlasts]
      · simp [hbeat.fresh houtlasts hframe, houtlasts]

end Beats

/-! ## Frames that are still marked -/

section Places

variable {α : Type} {a : α} {place : Nat}

theorem place_split {items : List α} (h : items.reverse[place]? = some a) :
    ∃ tops rest, items = tops ++ a :: rest ∧ rest.length = place := by
  induction items with
  | nil => cases h
  | cons top rest ih =>
      rcases place_cons h with hbelow | ⟨rfl, rfl⟩
      · obtain ⟨tops, under, rfl, hplace⟩ := ih hbelow
        exact ⟨top :: tops, under, rfl, hplace⟩
      · exact ⟨[], rest, rfl, rfl⟩

theorem place_flatten {levels : List (List α)} (h : levels.flatten.reverse[place]? = some a) :
    ∃ newer tops rest older, levels = newer ++ (tops ++ a :: rest) :: older ∧
      place = rest.length + older.flatten.length := by
  induction levels with
  | nil => cases h
  | cons level below ih =>
      rw [List.flatten_cons, List.reverse_append] at h
      by_cases hbelow : place < below.flatten.length
      · rw [List.getElem?_append_left (by simpa using hbelow)] at h
        obtain ⟨newer, tops, rest, older, rfl, hplace⟩ := ih h
        exact ⟨level :: newer, tops, rest, older, rfl, hplace⟩
      · rw [List.getElem?_append_right (by simpa using hbelow), List.length_reverse] at h
        obtain ⟨tops, rest, rfl, hlength⟩ := place_split h
        exact ⟨[], tops, rest, below, rfl, by omega⟩

end Places

/-- If no frame on top of its level is marked, then one that is stands beneath another one of its
level. -/
theorem Levels.TopsUnmarked.standsOn {levels : Levels} (h : levels.TopsUnmarked) {place : Nat}
    {frame : Frame} (hframe : levels.frameAt? place = some frame)
    (hmarked : frame.justResumed = true) :
    ∃ upper, levels.StandsOn upper frame (place + 1) := by
  obtain ⟨newer, tops, callers, older, hinward, rfl⟩ := place_flatten hframe
  rcases List.eq_nil_or_concat tops with rfl | ⟨others, upper, rfl⟩
  · have hunmarked := h (frame :: callers) (by simp [hinward]) frame rfl
    rw [hmarked] at hunmarked
    cases hunmarked
  · refine ⟨upper, newer, others, callers, older, by simp [hinward], ?_⟩
    simp only [List.length_cons]
    omega

end Parley
