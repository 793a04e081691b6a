import Parley.Proofs.Records
import Parley.Proofs.Resumptions
import Parley.Proofs.Unrolling

/-!
# Rounds are local

A round works on the frame that runs and on the scope of that frame.  It may take
this frame away, put one more on top of it, or give up the whole innermost level if
its step cannot be finished; it reaches no other frame and no other scope.  Only a
reboot does more, and a round that leaves a level changes the frame that goes on.
So a caller finds its frame as it left it when it called.
-/

set_option autoImplicit false

namespace Parley

/-! ## What a round leaves alone -/

/-- What no round of a turn ever changes. -/
structure Session.Fixed (before after : Session) : Prop where
  id : after.id = before.id
  userId : after.userId = before.userId
  globals : after.globals = before.globals
  lastEntry : after.lastEntry = before.lastEntry
  history : after.history = before.history

/-- The levels after a round that works on the frame that runs, whose step may have failed. -/
inductive Levels.Worked (failed : Prop) : Levels → Levels → Prop where
  /-- There is no frame to work on. -/
  | idled (suspended : List Level) : Worked failed ⟨[], suspended⟩ ⟨[], suspended⟩
  /-- The frame goes on, perhaps with another flow. -/
  | kept (frame after : Frame) (callers : Level) (suspended : List Level) (hdone : ¬failed)
      (hscope : after.scope = frame.scope) :
      Worked failed ⟨frame :: callers, suspended⟩ ⟨after :: callers, suspended⟩
  /-- The frame is taken away. -/
  | left (frame : Frame) (callers : Level) (suspended : List Level) (hdone : ¬failed) :
      Worked failed ⟨frame :: callers, suspended⟩ ⟨callers, suspended⟩
  /-- One more frame comes on top. -/
  | called (frame after top : Frame) (callers : Level) (suspended : List Level) (hdone : ¬failed)
      (hscope : after.scope = frame.scope) (hshared : top.scope = frame.scope) :
      Worked failed ⟨frame :: callers, suspended⟩ ⟨top :: after :: callers, suspended⟩
  /-- The frames of the innermost level are given up. -/
  | aborted (frame : Frame) (callers : Level) (suspended : List Level) (hfailed : failed) :
      Worked failed ⟨frame :: callers, suspended⟩ ⟨[], suspended⟩

/-- The session after a round that works on the frame that runs: all other frames, all scopes but
that of this frame, and what is no frame, scope or message are as they were. -/
structure Session.Local (failed : Prop) (before after : Session) : Prop where
  levels : before.levels.Worked failed after.levels
  scopes : ∀ id, (∀ frame, before.levels.top? = some frame → frame.scope ≠ id) →
    after.scopes.get? id = before.scopes.get? id
  nextId : after.scopes.nextId = before.scopes.nextId
  fixed : before.Fixed after

/-- The session after the empty innermost level has been left: the frame below goes on, and it is
told from the one that was paused by its mark and its transaction only. -/
structure Session.LeftLevel (before after : Session) : Prop where
  levels : ∃ (frame : Frame) (transaction : Transaction) (callers : Level) (below : List Level),
    before.levels = ⟨[], (frame :: callers) :: below⟩ ∧
      after.levels = ⟨{ frame with justResumed := true, transaction := transaction } :: callers,
        below⟩
  scopes : after.scopes = before.scopes
  fixed : before.Fixed after

namespace Levels.Worked

/-- Work that was done without failing may be told so. -/
theorem imp {before after : Levels} {failed : Prop} (h : before.Worked False after)
    (hdone : ¬failed) : before.Worked failed after := by
  cases h with
  | idled suspended => exact .idled suspended
  | kept frame after callers suspended _ hscope =>
      exact .kept frame after callers suspended hdone hscope
  | left frame callers suspended => exact .left frame callers suspended hdone
  | called frame after top callers suspended _ hscope hshared =>
      exact .called frame after top callers suspended hdone hscope hshared
  | aborted frame callers suspended hfailed => exact hfailed.elim

end Levels.Worked

namespace Session.Fixed

variable {before middle after : Session}

theorem refl (session : Session) : session.Fixed session :=
  ⟨rfl, rfl, rfl, rfl, rfl⟩

theorem trans (h : before.Fixed middle) (h' : middle.Fixed after) : before.Fixed after :=
  ⟨h'.id.trans h.id, h'.userId.trans h.userId, h'.globals.trans h.globals,
    h'.lastEntry.trans h.lastEntry, h'.history.trans h.history⟩

end Session.Fixed

namespace Turn

variable {engine : Engine} {turn : Turn}

/-- The step of the turn cannot be finished. -/
def Fails (engine : Engine) (turn : Turn) : Prop :=
  ∃ error, (turn.step engine).2 = .error error

theorem settle_fixed (turn : Turn) (outcome : Outcome) :
    turn.session.Fixed (turn.settle outcome).1.session := by
  obtain ⟨scene, next⟩ := outcome
  match next with
  | .error e => exact ⟨rfl, rfl, rfl, rfl, rfl⟩
  | .ok .proceed => exact ⟨rfl, rfl, rfl, rfl, rfl⟩
  | .ok .await => exact ⟨rfl, rfl, rfl, rfl, rfl⟩
  | .ok .leave => exact ⟨rfl, rfl, rfl, rfl, rfl⟩
  | .ok (.enter frame) => exact ⟨rfl, rfl, rfl, rfl, rfl⟩
  | .ok (.restart none) => exact ⟨rfl, rfl, rfl, rfl, rfl⟩
  | .ok (.restart (some flow)) => exact ⟨rfl, rfl, rfl, rfl, rfl⟩

theorem step_fixed (engine : Engine) (horder : turn.session.InOrder) :
    turn.session.Fixed (turn.step engine).1.session := by
  have hmove := step_move engine horder
  generalize turn.step engine = result at hmove ⊢
  cases hmove with
  | idled | exhausted => exact .refl _
  | resumed | finished => exact ⟨rfl, rfl, rfl, rfl, rfl⟩
  | performed frame callers suspended step rest vars outcome =>
      exact settle_fixed turn.charged outcome

/-- Where a step can be finished, its round adds nothing but messages. -/
theorem round_of_ok {progress : Progress} (h : (turn.step engine).2 = .ok progress) :
    (turn.round engine).turn.session.levels = (turn.step engine).1.session.levels ∧
      (turn.round engine).turn.session.scopes = (turn.step engine).1.session.scopes ∧
      (turn.step engine).1.session.Fixed (turn.round engine).turn.session := by
  unfold round
  generalize turn.step engine = result at h ⊢
  obtain ⟨after, next⟩ := result
  subst h
  cases progress with
  | running | blocked => exact ⟨rfl, rfl, .refl _⟩
  | done =>
      obtain ⟨hlevels, hscopes⟩ := levels_concluded engine after
      refine ⟨hlevels, hscopes, ?_⟩
      show after.session.Fixed (after.concluded engine).session
      unfold concluded
      split
      · exact ⟨rfl, rfl, rfl, rfl, rfl⟩
      · exact .refl _

/-- Where a step cannot be finished, its round gives up the innermost level as well. -/
theorem round_of_error {error : EngineError} (h : (turn.step engine).2 = .error error) :
    (turn.round engine).turn = (turn.step engine).1.abort engine error := by
  unfold round
  generalize turn.step engine = result at h ⊢
  obtain ⟨after, next⟩ := result
  subst h
  show Round.turn (if error.isBudget then .ended (after.abort engine error)
    else .onward (after.abort engine error)) = after.abort engine error
  split <;> rfl

/-- The task of the round is a reboot. -/
def Reboots (engine : Engine) (turn : Turn) : Prop :=
  ∃ id key, (turn.task engine).step? = some (.callFlow id key .reboot)

theorem not_restart {frame : Frame} {callers : Level} {suspended : List Level} {step : Step}
    {rest : List Step} {vars : Fields} {outcome : Outcome} (hquiet : ¬turn.Reboots engine)
    (hlevels : turn.session.levels = ⟨frame :: callers, suspended⟩)
    (hlimit : turn.taken + 1 ≤ engine.settings.maxSteps) (hsteps : frame.steps = step :: rest)
    (heffect : Effect (turn.charged.stage engine) step (turn.charged.scene frame vars) outcome)
    (flow : Option Definition) : outcome.next ≠ .ok (.restart flow) := by
  intro hnext
  obtain ⟨id, key, rfl⟩ := heffect.restart hnext
  have htask : turn.task engine = .dispatch frame (.callFlow id key .reboot) :=
    task_eq_dispatch.2 ⟨by simp [hlevels, Levels.top?], hlimit, rest, hsteps⟩
  exact hquiet ⟨id, key, by rw [htask]; rfl⟩

/-- A step reaches no scope but that of the frame that runs. -/
theorem step_scopes (horder : turn.session.InOrder) (hquiet : ¬turn.Reboots engine) :
    (∀ id, (∀ frame, turn.session.levels.top? = some frame → frame.scope ≠ id) →
        (turn.step engine).1.session.scopes.get? id = turn.session.scopes.get? id) ∧
      (turn.step engine).1.session.scopes.nextId = turn.session.scopes.nextId := by
  have hmove := step_move engine horder
  generalize turn.step engine = result at hmove ⊢
  cases hmove with
  | idled | resumed | exhausted | finished => exact ⟨fun _ _ => rfl, rfl⟩
  | performed frame callers suspended step rest vars outcome hlevels hlimit hsteps hvars heffect =>
      have hscopes := scopes_settle turn.charged
        (not_restart hquiet hlevels hlimit hsteps heffect)
      have hscope : outcome.scene.frame.scope = frame.scope := heffect.scope
      rw [hscopes]
      refine ⟨fun id hother => ?_, rfl⟩
      have hne : id ≠ outcome.scene.frame.scope := by
        rw [hscope]
        exact (hother frame (by simp [hlevels, Levels.top?])).symm
      exact Scopes.get?_put_of_ne _ hne

/-- A step that is finished works on the frame that runs; one that is not leaves the level where it
is. -/
theorem step_worked (horder : turn.session.InOrder) (hquiet : ¬turn.Reboots engine)
    (hstays : turn.task engine ≠ .resume) :
    (∃ progress, (turn.step engine).2 = .ok progress ∧
        turn.session.levels.Worked False (turn.step engine).1.session.levels) ∨
      ∃ error frame callers suspended, (turn.step engine).2 = .error error ∧
        turn.session.levels = ⟨frame :: callers, suspended⟩ ∧
        (turn.step engine).1.session.levels.suspended = suspended := by
  have hmove := step_move engine horder
  generalize turn.step engine = result at hmove ⊢
  cases hmove with
  | idled hlevels =>
      refine .inl ⟨.done, rfl, ?_⟩
      rw [hlevels]
      exact .idled []
  | resumed frame callers below hlevels =>
      exact absurd (by simp [task, hlevels, Levels.top?]) hstays
  | exhausted frame callers suspended hlevels hlimit =>
      exact .inr ⟨_, frame, callers, suspended, rfl, hlevels, congrArg Levels.suspended hlevels⟩
  | finished frame callers suspended hlevels hlimit hsteps =>
      refine .inl ⟨.running, rfl, ?_⟩
      rw [hlevels]
      exact .left frame callers suspended id
  | performed frame callers suspended step rest vars outcome hlevels hlimit hsteps hvars heffect =>
      have hcharged : turn.charged.session.levels = ⟨frame :: callers, suspended⟩ := hlevels
      have hnext := not_restart hquiet hlevels hlimit hsteps heffect
      have hscope : outcome.scene.frame.scope = frame.scope := heffect.scope
      have hafter := levels_settle hcharged outcome hnext
      obtain ⟨scene, next⟩ := outcome
      cases next with
      | error e =>
          exact .inr ⟨e, frame, callers, suspended, rfl, hlevels, congrArg Levels.suspended hafter⟩
      | ok next =>
          cases next with
          | proceed =>
              refine .inl ⟨_, rfl, ?_⟩
              rw [hlevels, hafter]
              exact .kept frame scene.frame callers suspended id hscope
          | await =>
              refine .inl ⟨_, rfl, ?_⟩
              rw [hlevels, hafter]
              exact .kept frame scene.frame callers suspended id hscope
          | leave =>
              refine .inl ⟨_, rfl, ?_⟩
              rw [hlevels, hafter]
              exact .left frame callers suspended id
          | enter top =>
              obtain ⟨flow, transaction, hstarted, -⟩ := heffect.enter rfl
              have hshared : top.scope = frame.scope := by
                rw [hstarted]
                rfl
              refine .inl ⟨_, rfl, ?_⟩
              rw [hlevels, hafter]
              exact .called frame scene.frame top callers suspended id hscope hshared
          | restart flow => exact absurd rfl (hnext flow)

/-- A round that is neither a reboot nor a resumption is local. -/
theorem round_local (horder : turn.session.InOrder) (hquiet : ¬turn.Reboots engine)
    (hstays : turn.task engine ≠ .resume) :
    turn.session.Local (turn.Fails engine) (turn.round engine).turn.session := by
  obtain ⟨hscopes, hnextId⟩ := step_scopes horder hquiet
  have hfixed := step_fixed engine horder
  rcases step_worked horder hquiet hstays with
    ⟨progress, hdone, hlevels⟩ | ⟨error, frame, callers, suspended, hfailed, hbefore, hafter⟩
  · obtain ⟨hsame, hkept, hlater⟩ := round_of_ok hdone
    have hworked : ¬turn.Fails engine := by
      rintro ⟨error, herror⟩
      cases hdone.symm.trans herror
    refine ⟨?_, by rwa [hkept], by rwa [hkept], hfixed.trans hlater⟩
    rw [hsame]
    exact hlevels.imp hworked
  · rw [round_of_error hfailed]
    refine ⟨?_, hscopes, hnextId, hfixed.trans ⟨rfl, rfl, rfl, rfl, rfl⟩⟩
    rw [hbefore]
    show Levels.Worked _ _ ⟨[], (turn.step engine).1.session.levels.suspended⟩
    rw [hafter]
    exact .aborted frame callers suspended ⟨error, hfailed⟩

/-- A round that leaves a level touches the frame that goes on, and nothing else. -/
theorem round_leftLevel (horder : turn.session.InOrder) (hresume : turn.task engine = .resume) :
    turn.session.LeftLevel (turn.round engine).turn.session := by
  have hfixed := step_fixed engine horder
  have hmove := step_move engine horder
  have hround := fun progress (hdone : (turn.step engine).2 = .ok progress) => round_of_ok hdone
  generalize turn.step engine = result at hmove hround hfixed
  -- a task that is a resumption finds no frame to work on
  have hnone : ∀ frame callers suspended,
      turn.session.levels ≠ ⟨frame :: callers, suspended⟩ := by
    intro frame callers suspended hlevels
    simp only [task, hlevels, Levels.top?, List.head?_cons] at hresume
    split at hresume
    · cases hresume
    · split at hresume <;> cases hresume
  cases hmove with
  | idled hlevels => simp [task, hlevels, Levels.top?, Levels.empty] at hresume
  | resumed frame callers below hlevels =>
      obtain ⟨hsame, hkept, hlater⟩ := hround .running rfl
      refine ⟨⟨frame, (resumed turn.session.userId frame).transaction, callers, below, hlevels, ?_⟩,
        hkept, hfixed.trans hlater⟩
      rw [hsame]
      rfl
  | exhausted frame callers suspended hlevels => exact absurd hlevels (hnone _ _ _)
  | finished frame callers suspended hlevels => exact absurd hlevels (hnone _ _ _)
  | performed frame callers suspended step rest vars outcome hlevels =>
      exact absurd hlevels (hnone _ _ _)

end Turn

/-! ## Callers -/

/-- The frame of a caller, right after its step with the call was taken away and recorded. -/
def Frame.called (frame : Frame) (id : String) : Frame :=
  frame.popStep.log (.plain id StepKind.callFlow.name .success)

/-- A call of a flow that does not exist is recorded and tells the user so. -/
theorem Stage.callFlow_of_unknown {key : String} (stage : Stage) (scene : Scene) (id : String)
    (hunknown : stage.engine.library.get? key = none)
    (hactive : scene.frame.transaction.state = .active) :
    stage.callFlow id key .call scene =
      ((scene.popStep.logging (.plain id StepKind.callFlow.name .success)).tell
        (stage.engine.notice .flowNotFound [("flow", key)])).outcome .proceed := by
  simp only [callFlow, hunknown, unknownFlow, Scene.finished_of_active hactive]

namespace Turn

variable {engine : Engine} {turn : Turn} {id key : String}

section Performed

variable {frame : Frame} {callers : Level} {suspended : List Level} {step : Step}
  {rest : List Step} {vars : Fields} {scene : Scene}
  (hlevels : turn.session.levels = ⟨frame :: callers, suspended⟩)
  (hvars : turn.session.scopes.get? frame.scope = some vars)
  (hbudget : turn.taken < engine.settings.maxSteps) (hsteps : frame.steps = step :: rest)

include hlevels hvars hbudget hsteps

theorem levels_round_of_outcome {next : Next}
    (hperform : perform (turn.charged.stage engine) step (turn.charged.scene frame vars) =
      scene.outcome next) (hnext : ∀ flow, next ≠ .restart flow) :
    (turn.round engine).turn.session.levels =
      ⟨levelAfter scene.frame callers (.ok next), suspended⟩ := by
  have hstep := step_of_next hlevels hvars hbudget hsteps
  rw [hperform] at hstep
  have hdone : ∃ progress, (turn.step engine).2 = .ok progress := by
    rw [hstep]
    cases next with
    | proceed | await | leave | enter top => exact ⟨_, rfl⟩
    | restart flow => exact absurd rfl (hnext flow)
  have hcharged : turn.charged.session.levels = ⟨frame :: callers, suspended⟩ := hlevels
  obtain ⟨progress, hdone⟩ := hdone
  rw [(round_of_ok hdone).1, hstep]
  exact levels_settle hcharged (scene.outcome next) fun flow hrestart =>
    hnext flow (Except.ok.inj hrestart)

theorem levels_round_of_failure {error : EngineError}
    (hperform : perform (turn.charged.stage engine) step (turn.charged.scene frame vars) =
      scene.failure error) :
    (turn.round engine).turn.session.levels = ⟨[], suspended⟩ := by
  have hstep := step_of_next hlevels hvars hbudget hsteps
  rw [hperform] at hstep
  have hfailed : (turn.step engine).2 = .error error := by
    rw [hstep]
    rfl
  have hcharged : turn.charged.session.levels = ⟨frame :: callers, suspended⟩ := hlevels
  have hsettled := levels_settle hcharged (scene.failure error) (by rintro _ ⟨⟩)
  rw [round_of_error hfailed, hstep]
  exact congrArg (fun levels => Levels.mk [] levels.suspended) hsettled

end Performed

/-- A call that brings a further frame puts it on top of its caller, of which the step was taken
away and recorded. -/
theorem levels_of_call (horder : turn.session.InOrder)
    (hcall : (turn.task engine).step? = some (.callFlow id key .call))
    (hmore : turn.session.levels.frames.length <
      (turn.round engine).turn.session.levels.frames.length) :
    ∃ frame top callers suspended, turn.session.levels = ⟨frame :: callers, suspended⟩ ∧
      (turn.round engine).turn.session.levels =
        ⟨top :: frame.called id :: callers, suspended⟩ := by
  obtain ⟨frame, htask⟩ := Task.step?_eq_some.1 hcall
  obtain ⟨htop, hbudget, rest, hsteps⟩ := task_eq_dispatch.1 htask
  have hactive := horder.active_of_top htop
  obtain ⟨vars, hvars⟩ := horder.exists_vars htop
  obtain ⟨callers, suspended, hlevels⟩ := Levels.top?_eq_some.1 htop
  rw [hlevels] at hmore
  cases hflow : engine.library.get? key with
  | none =>
      -- a call of a flow that does not exist is recorded, and that is all
      have hnoted := Stage.callFlow_of_unknown (turn.charged.stage engine)
        (turn.charged.scene frame vars) id hflow hactive
      rw [levels_round_of_outcome hlevels hvars hbudget hsteps hnoted (by rintro _ ⟨⟩)] at hmore
      exact absurd hmore (Nat.lt_irrefl _)
  | some flow =>
      by_cases hroom : engine.settings.maxStackDepth ≤ (turn.charged.stage engine).depth
      · have hfull := Stage.callFlow_of_full (turn.charged.stage engine)
          (turn.charged.scene frame vars) id hflow hroom
        rw [levels_round_of_failure hlevels hvars hbudget hsteps hfull] at hmore
        simp [Levels.frames, Levels.inward] at hmore
        omega
      · have hentered := Stage.callFlow_of_room (turn.charged.stage engine)
          (turn.charged.scene frame vars) id hflow (Nat.lt_of_not_le hroom) hactive
        have hcalled :=
          levels_round_of_outcome hlevels hvars hbudget hsteps hentered (by rintro _ ⟨⟩)
        exact ⟨frame, _, callers, suspended, hlevels, hcalled⟩

end Turn

/-! ## Histories -/

/-- What stands beneath others in a list has the same place without them. -/
theorem place_beneath {α : Type} {rest : List α} {place : Nat} (tops : List α)
    (h : place < rest.length) : (tops ++ rest).reverse[place]? = rest.reverse[place]? := by
  rw [List.reverse_append, List.getElem?_append_left (by simpa using h)]

namespace Levels

/-- The frame at a place is that of any level with so many frames beneath. -/
theorem frameAt?_beneath (tops : Level) {place : Nat} {callers : Level} {suspended : List Level}
    (h : place < (Levels.mk callers suspended).frames.length) :
    (Levels.mk (tops ++ callers) suspended).frameAt? place =
      (Levels.mk callers suspended).frameAt? place := by
  have hframes : (Levels.mk (tops ++ callers) suspended).frames =
      tops ++ (Levels.mk callers suspended).frames := by simp [frames, inward]
  simp only [frameAt?, hframes, place_beneath tops h]

theorem frameAt?_top (frame : Frame) {callers : Level} {suspended : List Level} {place : Nat}
    (h : (Levels.mk (frame :: callers) suspended).frames.length = place + 1) :
    (Levels.mk (frame :: callers) suspended).frameAt? place = some frame := by
  obtain rfl : (Levels.mk callers suspended).frames.length = place := Nat.succ.inj h
  show (frame :: (Levels.mk callers suspended).frames).reverse[_]? = some frame
  rw [List.reverse_cons, ← List.length_reverse]
  exact List.getElem?_concat_length

theorem exists_place_of_top? {levels : Levels} {frame : Frame} (h : levels.top? = some frame) :
    ∃ place, levels.frames.length = place + 1 ∧ levels.frameAt? place = some frame := by
  obtain ⟨callers, suspended, rfl⟩ := top?_eq_some.1 h
  exact ⟨_, rfl, frameAt?_top frame rfl⟩

/-- A frame with others on top of it is left as it is. -/
theorem Tended.frameAt? {before after : Levels} (h : before.Tended after) {place : Nat}
    (hbefore : place + 1 < before.frames.length) (hafter : place < after.frames.length) :
    after.frameAt? place = before.frameAt? place := by
  cases h with
  | dropped gone current suspended => exact (frameAt?_beneath gone hafter).symm
  | kept frame frame' callers suspended hkeeps =>
      have hunder : place < (Levels.mk callers suspended).frames.length :=
        Nat.lt_of_succ_lt_succ hbefore
      exact (frameAt?_beneath [frame'] hunder).trans
        (frameAt?_beneath [frame] hunder).symm
  | called frame frame' top callers suspended hkeeps =>
      have hunder : place < (Levels.mk callers suspended).frames.length :=
        Nat.lt_of_succ_lt_succ hbefore
      exact (frameAt?_beneath [top, frame'] hunder).trans
        (frameAt?_beneath [frame] hunder).symm
  | interrupted frame frame' top callers suspended hkeeps =>
      have hunder : place < (Levels.mk callers suspended).frames.length :=
        Nat.lt_of_succ_lt_succ hbefore
      exact (frameAt?_beneath [top, frame'] hunder).trans
        (frameAt?_beneath [frame] hunder).symm
  | started top suspended =>
      exact frameAt?_beneath [top] (Nat.lt_of_succ_lt hbefore)

end Levels

namespace Beat

/-- The frame at the place has others on top of it before the beat, and is still there after it. -/
structure Covers (beat : Beat) (place : Nat) : Prop where
  before : place + 1 < beat.before.frames.length
  after : place < beat.after.frames.length
  noReboot : ∀ id key, beat.dispatched ≠ some (.callFlow id key .reboot)

theorem Tends.frameAt? {beat : Beat} {place : Nat} (h : beat.Tends) (hcovers : beat.Covers place) :
    beat.after.frameAt? place = beat.before.frameAt? place := by
  cases h with
  | rebooted id key hreboot => exact absurd hreboot (hcovers.noReboot id key)
  | tended htended => exact htended.frameAt? hcovers.before hcovers.after
  | resumed userId frame callers below hstate hbefore hafter =>
      have hlength := hcovers.before
      rw [hbefore] at hlength ⊢
      rw [hafter]
      have hunder : place < (Levels.mk callers below).frames.length :=
        Nat.lt_of_succ_lt_succ hlength
      exact (Levels.frameAt?_beneath [Turn.resumed userId frame] hunder).trans
        (Levels.frameAt?_beneath [frame] hunder).symm

end Beat

/-- A frame that all beats cover is the same after each of them. -/
theorem Beats.covered {library : Library} {first last : Levels} {beats : List Beat} {place : Nat}
    (h : Beats library first beats last) (htends : ∀ beat ∈ beats, beat.Tends)
    (hcovers : ∀ beat ∈ beats, beat.Covers place) :
    ∀ beat ∈ beats, beat.after.frameAt? place = first.frameAt? place := by
  induction h with
  | nil levels => simp
  | cons beat hshift hlater ih =>
      have hfirst := (htends beat List.mem_cons_self).frameAt? (hcovers beat List.mem_cons_self)
      intro other hother
      rcases List.mem_cons.1 hother with rfl | hrest
      · exact hfirst
      · rw [← hfirst]
        exact ih (fun beat hbeat => htends beat (List.mem_cons_of_mem _ hbeat))
          (fun beat hbeat => hcovers beat (List.mem_cons_of_mem _ hbeat)) other hrest

namespace Turn

/-- The beat of a round. -/
def beat (engine : Engine) (turn : Turn) : Beat :=
  ⟨turn.session.levels, (turn.task engine).step?, (turn.round engine).turn.session.levels⟩

/-- The beats of a run are those of its rounds. -/
theorem Runs.beats_eq {engine : Engine} {turn final : Turn} {rounds : List Turn}
    (hrun : Runs engine turn rounds final) :
    Turn.beats engine final rounds = rounds.map (Turn.beat engine) := by
  induction hrun with
  | last hended => simp [Turn.beats, Turn.beat, hended, Round.turn]
  | more honward hrest ih =>
      cases hrest with
      | last hended => simp [Turn.beats, Turn.beat, hended, honward, Round.turn]
      | more hnext hlater =>
          simp only [Turn.beats, List.map_cons] at ih ⊢
          rw [ih]
          simp [Turn.beat, honward, Round.turn]

end Turn

namespace Engine

variable {engine : Engine} {session : Session}

/-- The beats of an exchange are the beginning of its turn and the rounds of that, or it only touches
the session. -/
theorem cases_of_beat (horder : session.InOrder) {exchange : Exchange} {beat : Beat}
    (hbeat : beat ∈ engine.beats session exchange) :
    (∃ turn, exchange.entry.role = .user ∧
        engine.opening exchange.journal session exchange.entry = .running turn ∧
        beat = ⟨session.levels, none, turn.session.levels⟩) ∨
      (∃ turn ∈ engine.trail session exchange, turn.session.InOrder ∧ beat = turn.beat engine) ∨
      session.Touched (engine.next session exchange) ∧
        beat = ⟨session.levels, none, (engine.next session exchange).levels⟩ := by
  rcases beats_cases engine horder exchange with
    ⟨turn, hrole, hopening, hbeats⟩ | ⟨htouched, hbeats⟩
  · obtain ⟨-, -, htrail⟩ := ran_of_running horder hrole hopening
    rw [hbeats, (Turn.runs_drive engine turn).beats_eq, ← htrail] at hbeat
    rcases List.mem_cons.1 hbeat with rfl | hround
    · exact .inl ⟨turn, hrole, hopening, rfl⟩
    · obtain ⟨round, hmem, rfl⟩ := List.mem_map.1 hround
      exact .inr (.inl ⟨round, hmem, trail_inOrder horder exchange hmem, rfl⟩)
  · rw [hbeats] at hbeat
    exact .inr (.inr ⟨htouched, List.mem_singleton.1 hbeat⟩)

/-- A beat in which a step is dispatched is that of a round of one of the exchanges. -/
theorem exchange_of_dispatched (horder : session.InOrder) (exchanges : List Exchange) {beat : Beat}
    (hbeat : beat ∈ engine.history session exchanges) {step : Step}
    (hstep : beat.dispatched = some step) :
    ∃ earlier exchange later, exchanges = earlier ++ exchange :: later ∧
      ∃ turn ∈ engine.trail (engine.after session earlier) exchange,
        turn.session.InOrder ∧ beat = turn.beat engine := by
  obtain ⟨earlier, exchange, later, hsplit, hexchange⟩ := exchange_of_beat hbeat
  refine ⟨earlier, exchange, later, hsplit, ?_⟩
  rcases cases_of_beat (after_inOrder horder earlier) hexchange with
    ⟨turn, -, -, rfl⟩ | hround | ⟨-, rfl⟩
  · cases hstep
  · exact hround
  · cases hstep

theorem round_of_dispatched (horder : session.InOrder) (exchanges : List Exchange) {beat : Beat}
    (hbeat : beat ∈ engine.history session exchanges) {step : Step}
    (hstep : beat.dispatched = some step) :
    ∃ turn : Turn, turn.session.InOrder ∧ beat = turn.beat engine := by
  obtain ⟨-, -, -, -, turn, -, hturn, hbeat⟩ := exchange_of_dispatched horder exchanges hbeat hstep
  exact ⟨turn, hturn, hbeat⟩

/-- A caller finds its frame as it left it: when a call has brought a further frame, the frame of
the caller is that with the step taken away and recorded, and it stays so as long as the beats cover
it. -/
theorem caller_untouched (horder : session.InOrder) (exchanges : List Exchange) {call : Beat}
    {during : List Beat} (hstretch : call :: during <:+: engine.history session exchanges)
    {id key : String} (hcall : call.dispatched = some (.callFlow id key .call)) {place : Nat}
    (hplace : call.before.frames.length = place + 1)
    (hmore : call.before.frames.length < call.after.frames.length)
    (hcovers : ∀ beat ∈ during, beat.Covers place) :
    ∃ frame, call.before.frameAt? place = some frame ∧
      ∀ beat ∈ call :: during, beat.after.frameAt? place = some (frame.called id) := by
  have htends : ∀ beat ∈ call :: during, beat.Tends := fun beat hbeat =>
    history_tends horder exchanges beat (hstretch.subset hbeat)
  obtain ⟨first, last, hrun⟩ := (history_follows engine horder exchanges).of_stretch hstretch
  obtain ⟨turn, hturn, rfl⟩ :=
    round_of_dispatched horder exchanges (hstretch.subset List.mem_cons_self) hcall
  obtain ⟨frame, top, callers, suspended, hbefore, hafter⟩ :=
    Turn.levels_of_call hturn hcall hmore
  have hcaller : (turn.beat engine).after.frameAt? place = some (frame.called id) := by
    show (turn.round engine).turn.session.levels.frameAt? place = _
    have hcount : (Levels.mk (frame.called id :: callers) suspended).frames.length = place + 1 := by
      rw [← hplace]
      show _ = turn.session.levels.frames.length
      rw [hbefore]
      rfl
    rw [hafter]
    exact (Levels.frameAt?_beneath [top] (by omega)).trans
      (Levels.frameAt?_top _ hcount)
  refine ⟨frame, ?_, ?_⟩
  · show turn.session.levels.frameAt? place = some frame
    have hcount : turn.session.levels.frames.length = place + 1 := hplace
    rw [hbefore] at hcount ⊢
    exact Levels.frameAt?_top frame hcount
  · cases hrun with
    | cons call hshift hlater =>
        have hsame := hlater.covered (fun beat hbeat => htends beat (List.mem_cons_of_mem _ hbeat))
          hcovers
        intro beat hbeat
        rcases List.mem_cons.1 hbeat with rfl | hduring
        · exact hcaller
        · rw [hsame beat hduring, hcaller]

/-- Rounds are local.  In every round that is neither a reboot nor the resumption of a level, all
frames but the one that runs, all scopes but that of this frame, and the variables, the user and the
id of the session stay as they are; the round takes away at most the frame that runs, or all frames
of the innermost level if its step cannot be finished, or puts one more frame on top.  A resumption
takes away the empty level and changes only the mark and the transaction of the frame that goes on.
So from a call on, as long as the called flow is in progress and when it has ended, the frame of the
caller is the one that was left when the call was taken away and recorded. -/
theorem rounds_are_local (h : engine.Reachable session) :
    (∀ exchange, ∀ turn ∈ engine.trail session exchange,
      (¬turn.Reboots engine → turn.task engine ≠ .resume →
        turn.session.Local (turn.Fails engine) (turn.round engine).turn.session) ∧
      (turn.task engine = .resume →
        turn.session.LeftLevel (turn.round engine).turn.session)) ∧
    ∀ exchanges call during, call :: during <:+: engine.history session exchanges →
      ∀ id key, call.dispatched = some (.callFlow id key .call) → ∀ place,
      call.before.frames.length = place + 1 → place + 1 < call.after.frames.length →
      (∀ beat ∈ during, beat.Covers place) →
        ∃ frame, call.before.frameAt? place = some frame ∧
          ∀ beat ∈ call :: during, beat.after.frameAt? place = some (frame.called id) := by
  constructor
  · intro exchange turn hturn
    have horder := trail_inOrder h.inOrder exchange hturn
    exact ⟨Turn.round_local horder, Turn.round_leftLevel horder⟩
  · intro exchanges call during hstretch id key hcall place hplace hmore hcovers
    exact caller_untouched h.inOrder exchanges hstretch hcall hplace (hplace ▸ hmore) hcovers

end Engine

namespace Kiosk

/-- A payment of which another flow asks the details. -/
def cashDesk : Engine :=
  { bank with
    library := stocked [{ payment with
        steps := [.callFlow "details" "Details" .call, .say "paid" (.plain "Paid")] },
      { flow "Details" "" "" with
        steps := [.ask "question" (.plain "Which card?") (some "card")] },
      flow "Weather" "Which city?" "city"] }

/-- The session after a guest has said some things there. -/
def cashDeskAfter (texts : List String) : Session :=
  cashDesk.after (cashDesk.startSession "guest" "desk") (texts.map guest)

theorem reachable_cashDeskAfter (texts : List String) : cashDesk.Reachable (cashDeskAfter texts) :=
  (Engine.Reachable.start "guest" "desk").after _

/-- The flow that a step calls. -/
def callee? : Step → Option (String × String)
  | .callFlow id key .call => some (id, key)
  | _ => none

theorem callee?_eq_some {step : Step} {id key : String} :
    callee? step = some (id, key) ↔ step = .callFlow id key .call := by
  unfold callee?
  split
  · simp
  · rename_i hnone
    simp only [reduceCtorEq, false_iff]
    rintro rfl
    exact hnone id key rfl

/-- The beats from the call of the details to their end. -/
def detailsBeats : List Beat :=
  ((cashDesk.history (cashDeskAfter []) [guest "Payment", guest "visa"]).drop 1).take 5

/-- While the details are asked, and when they have been given, the frame of the payment is the one
that was left at the call; each of the rounds is local, and a payment that goes on after the weather
is told from the one that was interrupted by its mark and its transaction only. -/
theorem details_local :
    (∃ turn ∈ cashDesk.trail (cashDeskAfter []) (guest "Payment"),
      turn.session.Local (turn.Fails cashDesk) (turn.round cashDesk).turn.session) ∧
    (∃ turn ∈ cashDesk.trail (cashDeskAfter ["Payment", "Weather"]) (guest "Paris"),
      turn.session.LeftLevel (turn.round cashDesk).turn.session) ∧
    ∃ call during frame, detailsBeats = call :: during ∧ call.before.frameAt? 0 = some frame ∧
      (∃ last ∈ during, last.before.frames.length = 2 ∧ last.after.frames.length = 1) ∧
      ∀ beat ∈ call :: during, beat.after.frameAt? 0 = some (frame.called "details") := by
  have hcalled : ((cashDesk.trail (cashDeskAfter []) (guest "Payment")).any fun turn =>
      (turn.task cashDesk).step?.any fun step => (callee? step).isSome) = true := by decide +kernel
  have hresumed : ((cashDesk.trail (cashDeskAfter ["Payment", "Weather"]) (guest "Paris")).any
      fun turn =>
        match turn.task cashDesk with
        | .resume => true
        | _ => false) = true := by decide +kernel
  have hbeats : (match detailsBeats with
      | [] => false
      | call :: during =>
        decide (call.dispatched.bind callee? = some ("details", "Details")) &&
        decide (call.before.frames.length = 1) && decide (1 < call.after.frames.length) &&
        (during.all fun beat => decide (1 < beat.before.frames.length) &&
          decide (0 < beat.after.frames.length) &&
          beat.dispatched.all fun step => step.kind != .callFlow) &&
        (during.any fun beat => decide (beat.before.frames.length = 2) &&
          decide (beat.after.frames.length = 1))) = true := by decide +kernel
  obtain ⟨hlocal, hframes⟩ := Engine.rounds_are_local (reachable_cashDeskAfter [])
  obtain ⟨hresumptions, -⟩ :=
    Engine.rounds_are_local (reachable_cashDeskAfter ["Payment", "Weather"])
  refine ⟨?_, ?_, ?_⟩
  · obtain ⟨turn, hturn, hstep⟩ := List.any_eq_true.1 hcalled
    obtain ⟨step, hstep, hcall⟩ := (Option.any_eq_true _ _).1 hstep
    obtain ⟨⟨id, key⟩, hcallee⟩ := Option.isSome_iff_exists.1 hcall
    rw [callee?_eq_some] at hcallee
    subst hcallee
    refine ⟨turn, hturn, (hlocal _ turn hturn).1 ?_ ?_⟩
    · rintro ⟨other, target, hreboot⟩
      cases hstep.symm.trans hreboot
    · intro hresume
      rw [hresume] at hstep
      cases hstep
  · obtain ⟨turn, hturn, htask⟩ := List.any_eq_true.1 hresumed
    refine ⟨turn, hturn, (hresumptions _ turn hturn).2 ?_⟩
    split at htask
    · assumption
    · cases htask
  · cases hstretch : detailsBeats with
    | nil =>
        rw [hstretch] at hbeats
        cases hbeats
    | cons call during =>
        have hinfix : call :: during <:+:
            cashDesk.history (cashDeskAfter []) [guest "Payment", guest "visa"] := by
          rw [← hstretch]
          exact (List.take_prefix _ _).isInfix.trans (List.drop_suffix _ _).isInfix
        simp only [hstretch, Bool.and_eq_true, decide_eq_true_eq, List.all_eq_true,
          List.any_eq_true, Option.all_eq_true, bne_iff_ne] at hbeats
        obtain ⟨⟨⟨⟨hcallee, hbefore⟩, hafter⟩, hcovers⟩, last, hlast, hended⟩ := hbeats
        obtain ⟨step, hstep, hcall⟩ := Option.bind_eq_some_iff.1 hcallee
        rw [callee?_eq_some] at hcall
        subst hcall
        obtain ⟨frame, hframe, hkept⟩ := hframes _ call during hinfix _ _ hstep 0 hbefore hafter
          fun beat hbeat => ⟨(hcovers beat hbeat).1.1, (hcovers beat hbeat).1.2,
            fun id key hreboot => (hcovers beat hbeat).2 _ hreboot rfl⟩
        exact ⟨call, during, frame, rfl, hframe, ⟨last, hlast, hended⟩, hkept⟩

end Kiosk

end Parley
