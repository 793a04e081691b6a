import Parley.Proofs.SessionOrder
import Parley.Proofs.StepEffect
import Parley.Turn.Run

/-!
# Rounds of a turn

A step of a turn whose session is in order does one of five things: nothing is
left to do, an interrupted level goes on, the budget is used up, a frame is
finished, or a step of the frame that runs has one of its effects.  A turn runs
rounds until one of them ends it, and there are always enough rounds.
-/

set_option autoImplicit false

namespace Parley

namespace Turn

/-- The turn with one more step taken. -/
def charged (turn : Turn) : Turn :=
  { turn with taken := turn.taken + 1 }

/-- The turn in which the level below has become the innermost one, and its frame goes on. -/
def resumedAt (engine : Engine) (turn : Turn) (frame : Frame) (callers : Level)
    (below : List Level) : Turn :=
  (turn.withLevels ⟨resumed turn.session.userId frame :: callers, below⟩).tell
    (engine.notice .resuming [("flow", frame.flowName)])

/-- What one step makes of a turn whose session is in order. -/
inductive Move (engine : Engine) (turn : Turn) : Turn × Except EngineError Progress → Prop where
  /-- There are no frames. -/
  | idled (hlevels : turn.session.levels = .empty) : Move engine turn (turn, .ok .done)
  /-- The innermost level has no frames, and the one below goes on. -/
  | resumed (frame : Frame) (callers : Level) (below : List Level)
      (hlevels : turn.session.levels = ⟨[], (frame :: callers) :: below⟩) :
      Move engine turn (turn.resumedAt engine frame callers below, .ok .running)
  /-- All allowed steps have been taken. -/
  | exhausted (frame : Frame) (callers : Level) (suspended : List Level)
      (hlevels : turn.session.levels = ⟨frame :: callers, suspended⟩)
      (hlimit : engine.settings.maxSteps < turn.taken + 1) :
      Move engine turn (turn.charged, .error (.stepBudgetExceeded engine.settings.maxSteps))
  /-- The frame that runs has no steps left. -/
  | finished (frame : Frame) (callers : Level) (suspended : List Level)
      (hlevels : turn.session.levels = ⟨frame :: callers, suspended⟩)
      (hlimit : turn.taken + 1 ≤ engine.settings.maxSteps) (hsteps : frame.steps = []) :
      Move engine turn (turn.charged.withLevels ⟨callers, suspended⟩, .ok .running)
  /-- The next step of the frame that runs is performed. -/
  | performed (frame : Frame) (callers : Level) (suspended : List Level) (step : Step)
      (rest : List Step) (vars : Fields) (outcome : Outcome)
      (hlevels : turn.session.levels = ⟨frame :: callers, suspended⟩)
      (hlimit : turn.taken + 1 ≤ engine.settings.maxSteps) (hsteps : frame.steps = step :: rest)
      (hvars : turn.session.scopes.get? frame.scope = some vars)
      (heffect : Effect (turn.charged.stage engine) step (turn.charged.scene frame vars) outcome) :
      Move engine turn (turn.charged.settle outcome)

/-- Every step of a turn whose session is in order is one of the moves. -/
theorem step_move (engine : Engine) {turn : Turn} (horder : turn.session.InOrder) :
    Move engine turn (turn.step engine) := by
  rcases hlevels : turn.session.levels with ⟨current, suspended⟩
  cases current with
  | nil =>
      cases suspended with
      | nil =>
          have hstep : turn.step engine = (turn, .ok .done) := by
            simp [step, hlevels, Levels.top?]
          rw [hstep]
          exact .idled hlevels
      | cons level below =>
          obtain ⟨top, callers, rfl, -⟩ := horder.wellAccounted.paused level (by simp [hlevels])
          have hstep : turn.step engine =
              (turn.resumedAt engine top callers below, .ok .running) := by
            simp [step, hlevels, Levels.top?, resume, Levels.leave, resumedAt, modifyTop,
              withLevels, withSession, Levels.modifyTop]
          rw [hstep]
          exact .resumed top callers below hlevels
  | cons frame callers =>
      have hactive : frame.transaction.state = .active :=
        horder.wellAccounted.running frame (by simp [hlevels])
      by_cases hlimit : engine.settings.maxSteps < turn.taken + 1
      · have hstep : turn.step engine =
            (turn.charged, .error (.stepBudgetExceeded engine.settings.maxSteps)) := by
          simp [step, hlevels, Levels.top?, hlimit, charged]
        rw [hstep]
        exact .exhausted frame callers suspended hlevels hlimit
      · cases hsteps : frame.steps with
        | nil =>
            have hstep : turn.step engine =
                (turn.charged.withLevels ⟨callers, suspended⟩, .ok .running) := by
              simp [step, hlevels, Levels.top?, hlimit, hsteps, finishFrame, Transaction.ifOpen,
                Transaction.isActive_iff.2 hactive, Transaction.complete,
                Transaction.finish_of_active hactive, Levels.pop, charged]
            rw [hstep]
            exact .finished frame callers suspended hlevels (Nat.le_of_not_lt hlimit) hsteps
        | cons next rest =>
            obtain ⟨vars, hvars⟩ := horder.exists_vars (by rw [hlevels]; rfl)
            have hstep : turn.step engine = turn.charged.settle
                (perform (turn.charged.stage engine) next (turn.charged.scene frame vars)) := by
              simp [step, hlevels, Levels.top?, hlimit, hsteps, runStep, hvars, charged]
            rw [hstep]
            exact .performed frame callers suspended next rest vars _ hlevels
              (Nat.le_of_not_lt hlimit) hsteps hvars (perform_effect next hactive)

/-- If the frame that runs has a next step and the budget allows it, that step is performed. -/
theorem step_performed (engine : Engine) {turn : Turn} (horder : turn.session.InOrder)
    {frame : Frame} {callers : Level} {suspended : List Level} {step : Step} {rest : List Step}
    (hlevels : turn.session.levels = ⟨frame :: callers, suspended⟩)
    (hsteps : frame.steps = step :: rest) (hbudget : turn.taken < engine.settings.maxSteps) :
    ∃ vars outcome, turn.session.scopes.get? frame.scope = some vars ∧
      turn.step engine = turn.charged.settle outcome ∧
      Effect (turn.charged.stage engine) step (turn.charged.scene frame vars) outcome := by
  have hmove := step_move engine horder
  generalize turn.step engine = result at hmove ⊢
  cases hmove with
  | idled hempty => cases hlevels.symm.trans hempty
  | resumed other others below hother => cases hlevels.symm.trans hother
  | exhausted other others below hother hlimit => omega
  | finished other others below hother hlimit hnil =>
      cases hlevels.symm.trans hother
      cases hsteps.symm.trans hnil
  | performed other others below next later vars outcome hother hlimit hnext hvars heffect =>
      cases hlevels.symm.trans hother
      cases hsteps.symm.trans hnext
      exact ⟨vars, outcome, hvars, rfl, heffect⟩

/-! ## What a step changes of the session -/

section Settle

variable {turn : Turn} {frame : Frame} {callers : Level} {suspended : List Level}

@[simp] theorem levels_withLevels (turn : Turn) (levels : Levels) :
    (turn.withLevels levels).session.levels = levels := rfl

theorem levels_adopt (hlevels : turn.session.levels = ⟨frame :: callers, suspended⟩)
    (scene : Scene) :
    (turn.adopt scene).session.levels = ⟨scene.frame :: callers, suspended⟩ := by
  simp [adopt, hlevels, Levels.modifyTop]

/-- The innermost level after a step that has left its frame as `frame` and on `callers`. -/
def levelAfter (frame : Frame) (callers : Level) : Except EngineError Next → Level
  | .ok .leave => callers
  | .ok (.enter entered) => entered :: frame :: callers
  | .ok (.restart _) => []
  | .ok .proceed | .ok .await | .error _ => frame :: callers

/-- What stands on the innermost level after a step are callers, the frame itself and the one it
entered. -/
theorem mem_levelAfter {next : Except EngineError Next} {f : Frame}
    (h : f ∈ levelAfter frame callers next) :
    f ∈ callers ∨ f = frame ∨ next = .ok (.enter f) := by
  have hstay : f ∈ frame :: callers → f ∈ callers ∨ f = frame ∨ next = .ok (.enter f) := by
    intro hmem
    rcases List.mem_cons.1 hmem with rfl | hcaller
    · exact .inr (.inl rfl)
    · exact .inl hcaller
  match next with
  | .error e => exact hstay h
  | .ok .proceed => exact hstay h
  | .ok .await => exact hstay h
  | .ok .leave => exact .inl h
  | .ok (.enter entered) =>
      rcases List.mem_cons.1 h with rfl | hrest
      · exact .inr (.inr rfl)
      · exact hstay hrest
  | .ok (.restart flow) => cases h

/-- A step that is no reboot changes the innermost level only. -/
theorem levels_settle (hlevels : turn.session.levels = ⟨frame :: callers, suspended⟩)
    (outcome : Outcome) (hnext : ∀ flow, outcome.next ≠ .ok (.restart flow)) :
    (turn.settle outcome).1.session.levels =
      ⟨levelAfter outcome.scene.frame callers outcome.next, suspended⟩ := by
  obtain ⟨scene, next⟩ := outcome
  have hadopt := levels_adopt hlevels scene
  match next with
  | .error e => exact hadopt
  | .ok .proceed => exact hadopt
  | .ok .await => exact hadopt
  | .ok .leave => simp [settle, advance, hadopt, Levels.pop, levelAfter]
  | .ok (.enter entered) => simp [settle, advance, hadopt, Levels.push, levelAfter]
  | .ok (.restart flow) => exact absurd rfl (hnext flow)

/-- A step that is no reboot changes the scope of its frame only. -/
theorem scopes_settle (turn : Turn) {outcome : Outcome}
    (hnext : ∀ flow, outcome.next ≠ .ok (.restart flow)) :
    (turn.settle outcome).1.session.scopes =
      turn.session.scopes.put outcome.scene.frame.scope outcome.scene.vars := by
  obtain ⟨scene, next⟩ := outcome
  match next with
  | .error e => rfl
  | .ok .proceed => rfl
  | .ok .await => rfl
  | .ok .leave => rfl
  | .ok (.enter entered) => rfl
  | .ok (.restart flow) => exact absurd rfl (hnext flow)

/-- A reboot leaves one frame if its target is known, in a scope of its own, and none else. -/
theorem settle_restart (turn : Turn) (scene : Scene) (flow : Option Definition) :
    (turn.settle ⟨scene, .ok (.restart flow)⟩).1.session.levels = .empty ∧
      (turn.settle ⟨scene, .ok (.restart flow)⟩).1.session.scopes =
        turn.session.scopes.put scene.frame.scope scene.vars ∨
    ∃ f vars, (turn.settle ⟨scene, .ok (.restart flow)⟩).1.session.levels = ⟨[f], []⟩ ∧
      f.scope = turn.session.scopes.nextId ∧ f.transaction.state = .active ∧ f.replaced = [] ∧
      f.pendingVariable = none ∧
      (turn.settle ⟨scene, .ok (.restart flow)⟩).1.session.scopes =
        ((turn.session.scopes.put scene.frame.scope scene.vars).allocate vars).1 := by
  cases flow with
  | none => exact .inl ⟨rfl, rfl⟩
  | some flow => exact .inr ⟨_, _, rfl, rfl, rfl, rfl, rfl, rfl⟩

end Settle

/-! ## Sessions stay in order -/

section InOrder

variable {engine : Engine} {turn : Turn}

/-- A reboot leaves the session in order. -/
theorem restart_inOrder (horder : turn.session.InOrder) (scene : Scene) (flow : Option Definition)
    (hhas : turn.session.scopes.has scene.frame.scope = true) :
    (turn.settle ⟨scene, .ok (.restart flow)⟩).1.session.InOrder := by
  -- all levels are given up, so the scopes only have to be numbered below the next one
  have hempty : Levels.empty.WellScoped (turn.session.scopes.put scene.frame.scope scene.vars) :=
    .empty (horder.wellScoped.put hhas scene.vars).fresh
  rcases settle_restart turn scene flow with
    ⟨hlevels, hscopes⟩ | ⟨f, initial, hlevels, hnew, hstarted, hnone, -, hscopes⟩
  · constructor
    · rw [hlevels, hscopes]
      exact hempty
    · rw [hlevels]
      exact .empty
  · constructor
    · rw [hlevels, hscopes]
      exact hempty.start (by simpa using hnew) initial
    · rw [hlevels]
      apply Levels.WellAccounted.empty.withCurrent
      · simpa using hstarted
      · simp [hnone]

section Local

variable {frame : Frame} {callers : Level} {suspended : List Level} {step : Step} {vars : Fields}
  {stage : Stage} {outcome : Outcome}

/-- The frames after a step that is no reboot stand in the scope of the level. -/
theorem settle_wellScoped (horder : turn.session.InOrder)
    (hlevels : turn.session.levels = ⟨frame :: callers, suspended⟩)
    (hhas : turn.session.scopes.has outcome.scene.frame.scope = true)
    (heffect : Effect stage step (turn.scene frame vars) outcome)
    (hnext : ∀ flow, outcome.next ≠ .ok (.restart flow)) :
    (turn.settle outcome).1.session.levels.WellScoped (turn.settle outcome).1.session.scopes := by
  have hscope : outcome.scene.frame.scope = frame.scope := heffect.scope
  have hscopes := horder.wellScoped.put hhas outcome.scene.vars
  rw [hlevels] at hscopes
  rw [levels_settle hlevels outcome hnext, scopes_settle turn hnext]
  apply hscopes.withCurrent
  -- a frame that was entered shares the scope of the frame that called it
  intro f hf
  rcases mem_levelAfter hf with hcaller | rfl | henter
  · exact ⟨f, List.mem_cons_of_mem _ hcaller, rfl⟩
  · exact ⟨frame, List.mem_cons_self, hscope⟩
  · obtain ⟨flow, transaction, rfl, -⟩ := heffect.enter henter
    exact ⟨frame, List.mem_cons_self, rfl⟩

/-- The frames after a step that is no reboot have active transactions. -/
theorem settle_wellAccounted (horder : turn.session.InOrder)
    (hlevels : turn.session.levels = ⟨frame :: callers, suspended⟩)
    (heffect : Effect stage step (turn.scene frame vars) outcome)
    (hnext : ∀ flow, outcome.next ≠ .ok (.restart flow)) :
    (turn.settle outcome).1.session.levels.WellAccounted := by
  have hbefore := horder.wellAccounted
  rw [hlevels] at hbefore
  have htop : frame ∈ frame :: callers := List.mem_cons_self
  rw [levels_settle hlevels outcome hnext]
  apply hbefore.withCurrent
  · intro f hf
    rcases mem_levelAfter hf with hcaller | rfl | henter
    · exact hbefore.running f (List.mem_cons_of_mem _ hcaller)
    · exact heffect.active (hbefore.running frame htop)
    · obtain ⟨flow, transaction, rfl, hstarted⟩ := heffect.enter henter
      exact hstarted
  · intro f hf former hformer
    rcases mem_levelAfter hf with hcaller | rfl | henter
    · have hmem : f ∈ (Levels.mk (frame :: callers) suspended).frames :=
        Levels.mem_frames.2 (.inl (List.mem_cons_of_mem frame hcaller))
      exact hbefore.replaced f hmem former hformer
    · rcases heffect.former hformer with hold | hnew
      · exact hbefore.replaced frame (Levels.mem_frames.2 (.inl htop)) former hold
      · exact hnew
    · obtain ⟨flow, transaction, rfl, -⟩ := heffect.enter henter
      cases hformer

theorem settle_inOrder (horder : turn.session.InOrder)
    (hlevels : turn.session.levels = ⟨frame :: callers, suspended⟩)
    (hvars : turn.session.scopes.get? frame.scope = some vars)
    (heffect : Effect stage step (turn.scene frame vars) outcome) :
    (turn.settle outcome).1.session.InOrder := by
  have hscope : outcome.scene.frame.scope = frame.scope := heffect.scope
  have hhas : turn.session.scopes.has outcome.scene.frame.scope = true :=
    Scopes.has_iff.2 ⟨vars, hscope ▸ hvars⟩
  by_cases hrestart : ∃ flow, outcome.next = .ok (.restart flow)
  · obtain ⟨flow, hnext⟩ := hrestart
    obtain ⟨scene, next⟩ := outcome
    subst hnext
    exact restart_inOrder horder scene flow hhas
  · have hnext : ∀ flow, outcome.next ≠ .ok (.restart flow) :=
      fun flow hflow => hrestart ⟨flow, hflow⟩
    constructor
    · exact settle_wellScoped horder hlevels hhas heffect hnext
    · exact settle_wellAccounted horder hlevels heffect hnext

end Local

/-- The frame that goes on after an interruption has an active transaction. -/
theorem state_resumed (userId : String) (frame : Frame) :
    (resumed userId frame).transaction.state = .active := by
  by_cases hactive : frame.transaction.isActive = true
  · simp [resumed, hactive, Transaction.isActive_iff.1 hactive]
  · simp [resumed, hactive]

theorem resumedAt_inOrder {frame : Frame} {callers : Level} {below : List Level}
    (horder : turn.session.InOrder)
    (hlevels : turn.session.levels = ⟨[], (frame :: callers) :: below⟩) :
    (turn.resumedAt engine frame callers below).session.InOrder := by
  have hscopes := horder.wellScoped
  have htransactions := horder.wellAccounted
  rw [hlevels] at hscopes htransactions
  refine ⟨?_, htransactions.resume (state_resumed _ _) rfl⟩
  exact hscopes.leave.modifyTop fun f =>
    show (resumed turn.session.userId f).scope = f.scope from rfl

/-- The innermost level may lose frames. -/
theorem withCurrent_inOrder (horder : turn.session.InOrder) (current : Level)
    (hmem : ∀ f ∈ current, f ∈ turn.session.levels.current) :
    (turn.withLevels ⟨current, turn.session.levels.suspended⟩).session.InOrder := by
  refine ⟨horder.wellScoped.withCurrent fun f hf => ⟨f, hmem f hf, rfl⟩,
    horder.wellAccounted.withCurrent (fun f hf => horder.wellAccounted.running f (hmem f hf)) ?_⟩
  exact fun f hf => horder.wellAccounted.replaced f (Levels.mem_frames.2 (.inl (hmem f hf)))

/-- A step leaves the session in order. -/
theorem step_inOrder (horder : turn.session.InOrder) :
    (turn.step engine).1.session.InOrder := by
  have hmove := step_move engine horder
  generalize turn.step engine = result at hmove
  cases hmove with
  | idled hlevels => exact horder
  | resumed frame callers below hlevels => exact resumedAt_inOrder horder hlevels
  | exhausted frame callers suspended hlevels hlimit => exact horder
  | finished frame callers suspended hlevels hlimit hsteps =>
      have hfewer := withCurrent_inOrder horder callers fun f hf => by simp [hlevels, hf]
      rwa [hlevels] at hfewer
  | performed frame callers suspended step rest vars outcome hlevels hlimit hsteps hvars heffect =>
      have hcharged : turn.charged.session.InOrder := horder
      exact settle_inOrder hcharged hlevels hvars heffect

/-- After an error the session is still in order. -/
theorem abort_inOrder (horder : turn.session.InOrder) (error : EngineError) :
    (turn.abort engine error).session.InOrder := by
  have hdrained := withCurrent_inOrder horder [] (by simp)
  exact ⟨hdrained.wellScoped, hdrained.wellAccounted⟩

end InOrder

end Turn

end Parley
