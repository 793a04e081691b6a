import Parley.Proofs.Inlining
import Parley.Proofs.Resemblance

/-!
# Turns of a called flow and of its caller alone

A conversation in which a flow calls another one is compared with the conversation in
which the steps of the called flow stand in the place of the call.  The former has the
frames of the callers on its innermost level where the latter has one frame.  A round
that enters a called flow or completes its frame has no counterpart; every other round
has one, which leaves the two turns as they were related, or without frames on the
innermost level.
-/

set_option autoImplicit false

namespace Parley

/-! ## Levels -/

/-- The frames of callers that stand in the given scope, and the steps that they have left all
together, up to inlining. -/
inductive Level.Calls (library : Library) (scope : Nat) : Level → List Step → Prop where
  | nil : Calls library scope [] []
  | cons {frame : Frame} {callers : Level} {now later : List Step} (hquiet : frame.Quiet)
      (hscope : frame.scope = scope) (hsteps : Step.Inlined library frame.steps now)
      (h : Calls library scope callers later) :
      Calls library scope (frame :: callers) (now ++ later)

theorem Level.Calls.scope {library : Library} {scope : Nat} {callers : Level} {later : List Step}
    (h : Level.Calls library scope callers later) {f : Frame} (hf : f ∈ callers) :
    f.scope = scope := by
  induction h with
  | nil => cases hf
  | cons hquiet hscope hsteps hrest ih =>
      rcases List.mem_cons.1 hf with rfl | hmem
      · exact hscope
      · exact ih hmem

/-- The innermost level has a frame with its callers on one side, and one frame with all their steps
on the other side. -/
inductive Levels.Unrolls (library : Library) (suspended : List Level) : Levels → Levels → Prop where
  | intro {top frame : Frame} {callers : Level} {later : List Step}
      (hcallers : Level.Calls library top.scope callers later)
      (hframe : top.Inlines library later frame) :
      Unrolls library suspended ⟨top :: callers, suspended⟩ ⟨[frame], suspended⟩

/-- Frames that find the same variables under their numbers need no others. -/
theorem Levels.Renaming.of_same {levels : Levels} {a b : Scopes} (ha : levels.WellScoped a)
    (hb : levels.WellScoped b) (hsame : ∀ id, b.get? id = a.get? id) :
    levels.Renaming (fun scope => scope) a b :=
  ⟨fun f _ => hsame f.scope, fun _ _ _ _ heq => heq, fun f hf => ha.fresh _ (ha.present f hf),
    fun f hf => hb.fresh _ (hb.present f hf)⟩

theorem Levels.renamed_self (levels : Levels) : levels.renamed (fun scope => scope) = levels := by
  have hsame : Frame.renamed (fun scope => scope) = fun frame => frame := rfl
  simp [renamed, hsame]

/-! ## Sessions -/

/-- The sessions have the same variables, messages and users; their levels and what they have heard
may differ. -/
structure Session.Beside (a b : Session) : Prop where
  id : b.id = a.id
  userId : b.userId = a.userId
  globals : b.globals = a.globals
  outbox : b.outbox = a.outbox
  scopes : ∀ scope, b.scopes.get? scope = a.scopes.get? scope

namespace Session.Beside

variable {a b : Session}

/-- If the levels are the same as well, the sessions can be told apart only by what they have heard
and by scopes that no frame refers to. -/
theorem mirrors (h : a.Beside b) (hlevels : b.levels = a.levels) (ha : a.InOrder)
    (hb : b.InOrder) : a.Mirrors (fun scope => scope) b := by
  obtain ⟨id, userId, levels, scopes, outbox, lastEntry, globals, history⟩ := b
  obtain ⟨rfl, rfl, rfl, rfl, hscopes⟩ := h
  obtain rfl : levels = a.levels := hlevels
  have hrenaming : a.levels.Renaming (fun scope => scope) a.scopes scopes :=
    .of_same ha.wellScoped hb.wellScoped hscopes
  have hmirrors := Session.Mirrors.intro scopes lastEntry history hrenaming
  rwa [Levels.renamed_self] at hmirrors

theorem withLevels (h : a.Beside b) (levels others : Levels) :
    ({ a with levels := levels } : Session).Beside { b with levels := others } :=
  ⟨h.id, h.userId, h.globals, h.outbox, h.scopes⟩

theorem tell (h : a.Beside b) (text : String) : (a.tell text).Beside (b.tell text) :=
  ⟨h.id, h.userId, h.globals, congrArg (· ++ [text]) h.outbox, h.scopes⟩

end Session.Beside

/-! ## Calls -/

namespace Stage

variable {key : String} {flow : Definition} (stage : Stage) (scene : Scene) (id : String)

/-- A call of a flow fails if the level has no room for another frame. -/
theorem callFlow_of_full (hflow : stage.engine.library.get? key = some flow)
    (hfull : stage.engine.settings.maxStackDepth ≤ stage.depth) :
    stage.callFlow id key .call scene =
      scene.failure (.recursionLimit stage.engine.settings.maxStackDepth) := by
  simp only [callFlow, hflow, call, if_pos hfull]

/-- Else the call is finished, and the frame of the called flow stands in its caller's scope. -/
theorem callFlow_of_room (hflow : stage.engine.library.get? key = some flow)
    (hroom : stage.depth < stage.engine.settings.maxStackDepth)
    (hactive : scene.frame.transaction.state = .active) :
    stage.callFlow id key .call scene =
      ((scene.popStep.logging (.plain id StepKind.callFlow.name .success)).declare flow).outcome
        (.enter (.start flow scene.frame.scope
          (.start flow.name ("flow:" ++ scene.frame.flowName) stage.userId))) := by
  simp only [callFlow, hflow, call, if_neg (Nat.not_le.2 hroom), Scene.finished_of_active hactive]
  rfl

end Stage

/-! ## Turns -/

/-- The sessions of the turns stand beside each other, the other turn has taken no more steps, and
the same tools were invoked before. -/
structure Turn.Beside (a b : Turn) : Prop where
  session : a.session.Beside b.session
  input : b.input = a.input
  taken : b.taken ≤ a.taken
  invoked : b.journal.invoked = a.journal.invoked

/-- A flow and the flows that it has called are in progress in one turn, and one flow with all their
steps in the other. -/
structure Turn.Unrolls (library : Library) (suspended : List Level) (a b : Turn) : Prop where
  beside : a.Beside b
  levels : a.session.levels.Unrolls library suspended b.session.levels

/-- No flow is in progress on the innermost level of either turn. -/
structure Turn.Rejoins (suspended : List Level) (a b : Turn) : Prop where
  beside : a.Beside b
  left : a.session.levels = ⟨[], suspended⟩
  right : b.session.levels = ⟨[], suspended⟩

namespace Turn

variable {engine : Engine} {library : Library} {suspended : List Level} {a b : Turn}

namespace Beside

theorem charged (h : a.Beside b) : a.charged.Beside b.charged :=
  ⟨h.session, h.input, Nat.succ_le_succ h.taken, h.invoked⟩

theorem withLevels (h : a.Beside b) (levels others : Levels) :
    (a.withLevels levels).Beside (b.withLevels others) :=
  ⟨h.session.withLevels levels others, h.input, h.taken, h.invoked⟩

theorem tell (h : a.Beside b) (text : String) : (a.tell text).Beside (b.tell text) :=
  ⟨h.session.tell text, h.input, h.taken, h.invoked⟩

/-- Scenes that correspond are adopted by both turns. -/
theorem adopt (h : a.Beside b) {later : List Step} {scene other : Scene}
    (hscenes : scene.Inlines library later other) : (a.adopt scene).Beside (b.adopt other) := by
  refine ⟨⟨h.session.id, h.session.userId, h.session.globals, ?_, ?_⟩, hscenes.input, h.taken,
    hscenes.invoked⟩
  · simp only [Turn.adopt, h.session.outbox, hscenes.said]
  · intro id
    simp only [Turn.adopt, hscenes.frame.scope, hscenes.vars]
    by_cases hid : id = scene.frame.scope
    · rw [hid, Scopes.get?_put_self, Scopes.get?_put_self]
    · rw [Scopes.get?_put_of_ne _ hid, Scopes.get?_put_of_ne _ hid]
      exact h.session.scopes id

end Beside

/-! ## Rounds -/

theorem round_of_running {next : Turn} (h : a.step engine = (next, .ok .running)) :
    a.round engine = .onward next := by
  simp only [round, h]

theorem round_of_failed {failed : Turn} {error : EngineError}
    (h : a.step engine = (failed, .error error)) (hbudget : error.isBudget = false) :
    a.round engine = .onward (failed.abort engine error) := by
  simp [round, h, hbudget]

end Turn

/-- What the round of a turn with called flows does to the turn beside it. -/
inductive Turn.Pace (engine : Engine) (suspended : List Level) (a b : Turn) : Prop where
  /-- A called flow is entered or completed, and the other turn stays where it is. -/
  | aside (next : Turn) (hround : a.round engine = .onward next)
      (h : next.Unrolls engine.library suspended b)
  /-- Both turns go on. -/
  | onward (next other : Turn) (hround : a.round engine = .onward next)
      (hother : b.round engine = .onward other)
      (h : next.Unrolls engine.library suspended other ∨ next.Rejoins suspended other)
  /-- Both turns end. -/
  | ended (final last : Turn) (hround : a.round engine = .ended final)
      (hother : b.round engine = .ended last)
      (h : final.Unrolls engine.library suspended last)

namespace Turn

variable {engine : Engine} {suspended : List Level} {a b : Turn}

section Rounds

variable {top frame : Frame} {callers : Level} {now later : List Step} {step : Step}
  {rest : List Step}

/-- The round completes the frame that runs. -/
theorem step_of_complete (hlevels : a.session.levels = ⟨top :: callers, suspended⟩)
    (hactive : top.transaction.state = .active) (hbudget : a.taken < engine.settings.maxSteps)
    (hsteps : top.steps = []) :
    a.step engine = (a.charged.withLevels ⟨callers, suspended⟩, .ok .running) := by
  have hlimit : ¬engine.settings.maxSteps < a.taken + 1 := by omega
  simp [Turn.step, hlevels, Levels.top?, hlimit, hsteps, finishFrame, Transaction.ifOpen,
    Transaction.isActive_iff.2 hactive, Transaction.complete,
    Transaction.finish_of_active hactive, Levels.pop, Turn.charged]

/-- The round performs the next step of the frame that runs. -/
theorem step_of_next {vars : Fields} (hlevels : a.session.levels = ⟨top :: callers, suspended⟩)
    (hvars : a.session.scopes.get? top.scope = some vars)
    (hbudget : a.taken < engine.settings.maxSteps) (hsteps : top.steps = step :: rest) :
    a.step engine = a.charged.settle
      (perform (a.charged.stage engine) step (a.charged.scene top vars)) := by
  have hlimit : ¬engine.settings.maxSteps < a.taken + 1 := by omega
  simp [Turn.step, hlevels, Levels.top?, hlimit, hsteps, runStep, hvars, Turn.charged]

/-- A turn whose frame that runs has something to do stops at the budget. -/
theorem budget_of_step (hlevels : a.session.levels = ⟨top :: callers, suspended⟩)
    (hlimits : a.SparesLimits engine) :
    a.taken < engine.settings.maxSteps := by
  by_contra hover
  have hlimit : engine.settings.maxSteps < a.taken + 1 := by omega
  have hstep : (a.step engine).2 =
      .error (.stepBudgetExceeded engine.settings.maxSteps) := by
    simp [Turn.step, hlevels, Levels.top?, hlimit]
  cases hlimits _ hstep

variable (hbeside : a.Beside b) (hla : a.session.levels = ⟨top :: callers, suspended⟩)
  (hlb : b.session.levels = ⟨[frame], suspended⟩)
  (hcallers : Level.Calls engine.library top.scope callers later)
  (hframe : top.Inlines engine.library later frame) (ha : top.transaction.state = .active)
  (hbudget : a.taken < engine.settings.maxSteps)

include hbeside hla hlb hcallers hframe ha hbudget

section Both

variable (hb : frame.transaction.state = .active)

include hb

/-- The frame of the last flow is completed in both turns, and that of a called flow only in the one
that has it. -/
theorem complete_pace (hsteps : top.steps = []) : Pace engine suspended a b := by
  obtain ⟨now, hnow, hframesteps⟩ := hframe.steps
  rw [hsteps] at hnow
  cases hnow
  have hpending : top.pendingVariable = none := hframe.quiet (by simp [hsteps])
  have hround := round_of_running (step_of_complete hla ha hbudget hsteps)
  cases hcallers with
  | nil =>
      have hother := round_of_running (step_of_complete hlb hb
        (Nat.lt_of_le_of_lt hbeside.taken hbudget) hframesteps)
      exact .onward _ _ hround hother (.inr ⟨hbeside.charged.withLevels _ _, rfl, rfl⟩)
  | @cons caller callers now later hquiet hscope hsteps' hrest =>
      refine .aside _ hround ⟨?_, ?_⟩
      · exact ⟨hbeside.session.withLevels _ b.session.levels, hbeside.input,
          Nat.le_succ_of_le hbeside.taken, hbeside.invoked⟩
      · rw [hlb]
        refine .intro (hscope ▸ hrest) ⟨⟨now, hsteps', hframesteps⟩, ?_, ?_, ?_, ?_, ?_⟩
        · rw [hframe.scope, hscope]
        · rw [hframe.pending, hpending, hquiet.pending]
        · intro target hwaiting
          cases hquiet.pending.symm.trans hwaiting
        · exact ⟨hquiet.interruption, hframe.undisturbed.2⟩
        · exact ⟨hquiet.fresh, hframe.fresh.2⟩

/-- A step that is kept is performed in both turns. -/
theorem kept_pace {vars : Fields} (hstep : step.Textual Template.Plain)
    (hsteps : top.steps = step :: rest) (hvars : a.session.scopes.get? top.scope = some vars) :
    Pace engine suspended a b := by
  obtain ⟨others, hothers, hframesteps⟩ := hframe.next hstep hsteps
  have hvars' : b.session.scopes.get? frame.scope = some vars := by
    rw [hframe.scope, hbeside.session.scopes, hvars]
  have hscenes : (a.charged.scene top vars).Inlines engine.library later
      (b.charged.scene frame vars) := ⟨hframe, rfl, hbeside.input, rfl, hbeside.invoked, ha, hb⟩
  have hstages : (a.charged.stage engine).Near (b.charged.stage engine) :=
    ⟨rfl, hbeside.session.userId, hbeside.session.id⟩
  have houtcomes := perform_inlines hscenes hstages hstep hsteps
  have hscope : (perform (a.charged.stage engine) step
      (a.charged.scene top vars)).scene.frame.scope = top.scope :=
    (perform_effect step hscenes.active.1).scope
  have hstepa := step_of_next hla hvars hbudget hsteps
  have hstepb := step_of_next hlb hvars' (Nat.lt_of_le_of_lt hbeside.taken hbudget) hframesteps
  generalize perform (a.charged.stage engine) step _ = outcome at houtcomes hscope hstepa
  generalize perform (b.charged.stage engine) step _ = outcome' at houtcomes hstepb
  obtain ⟨scene, next⟩ := outcome
  obtain ⟨scene', next'⟩ := outcome'
  obtain ⟨hafter, hnext, hkind⟩ := houtcomes
  obtain rfl : next' = next := hnext
  have hadopted : (a.charged.adopt scene).Beside (b.charged.adopt scene') :=
    hbeside.charged.adopt hafter
  have hlevels : (a.charged.adopt scene).session.levels = ⟨scene.frame :: callers, suspended⟩ :=
    levels_adopt hla scene
  have hlevels' : (b.charged.adopt scene').session.levels = ⟨[scene'.frame], suspended⟩ :=
    levels_adopt hlb scene'
  have hunrolls : (a.charged.adopt scene).Unrolls engine.library suspended
      (b.charged.adopt scene') := by
    refine ⟨hadopted, ?_⟩
    rw [hlevels, hlevels']
    exact .intro (hscope.symm ▸ hcallers) hafter.frame
  rcases hkind with hproceed | hawait | ⟨kind, detail, herror⟩
  · obtain rfl : next' = .ok .proceed := hproceed
    exact .onward _ _ (round_of_running hstepa) (round_of_running hstepb) (.inl hunrolls)
  · obtain rfl : next' = .ok .await := hawait
    have hblocked : (a.step engine).2 = .ok .blocked := by rw [hstepa]; rfl
    have hblocked' : (b.step engine).2 = .ok .blocked := by rw [hstepb]; rfl
    refine .ended _ _ (round_of_blocked hblocked) (round_of_blocked hblocked') ?_
    rw [hstepa, hstepb]
    exact hunrolls
  · obtain rfl : next' = .error (.noMatchingBranch kind detail) := herror
    refine .onward _ _ (round_of_failed hstepa rfl) (round_of_failed hstepb rfl) (.inr ⟨?_, ?_, ?_⟩)
    · exact (hadopted.withLevels _ _).tell _
    · show (a.charged.adopt scene).session.levels.drain.1 = _
      rw [hlevels]
      rfl
    · show (b.charged.adopt scene').session.levels.drain.1 = _
      rw [hlevels']
      rfl

end Both

/-- A call brings a frame of the called flow in the turn that has it; its steps stand next in the
frame of the other turn. -/
theorem called_pace {id key : String} {flow : Definition} {vars : Fields} {body others : List Step}
    (hsteps : top.steps = .callFlow id key .call :: rest)
    (hflow : engine.library.get? key = some flow) (hnone : flow.vars = [])
    (hbody : Step.Inlined engine.library flow.steps body)
    (hrest : Step.Inlined engine.library rest others)
    (hframesteps : frame.steps = (body ++ others) ++ later)
    (hvars : a.session.scopes.get? top.scope = some vars)
    (hlimits : a.SparesLimits engine) :
    Pace engine suspended a b := by
  have hpending : top.pendingVariable = none := hframe.quiet (by simp [hsteps])
  have hstep := step_of_next hla hvars hbudget hsteps
  by_cases hroom : engine.settings.maxStackDepth ≤ (a.charged.stage engine).depth
  · -- without room for another frame the limit of the depth is reached
    have hfailed : (a.step engine).2 = .error (.recursionLimit engine.settings.maxStackDepth) := by
      rw [hstep]
      simp only [perform, Stage.callFlow_of_full (a.charged.stage engine) _ id hflow hroom]
      rfl
    cases hlimits _ hfailed
  · have hentered := Stage.callFlow_of_room (a.charged.stage engine) (a.charged.scene top vars) id
      hflow (Nat.lt_of_not_le hroom) ha
    simp only [perform, hentered] at hstep
    have hcaller : Level.Calls engine.library top.scope
        ((top.popStep.log (.plain id StepKind.callFlow.name .success)) :: callers)
        (others ++ later) := by
      refine .cons ⟨hpending, hframe.undisturbed.1, hframe.fresh.1⟩ rfl ?_ hcallers
      simpa [Frame.log, Frame.popStep, hsteps] using hrest
    refine .aside _ (round_of_running hstep) ⟨⟨⟨hbeside.session.id, hbeside.session.userId,
      hbeside.session.globals, ?_, ?_⟩, hbeside.input, Nat.le_succ_of_le hbeside.taken,
      hbeside.invoked⟩, ?_⟩
    · rw [hbeside.session.outbox]
      exact (List.append_nil _).symm
    · intro scope
      have hdeclared : Table.underlay flow.vars vars = vars := by rw [hnone]; rfl
      show b.session.scopes.get? scope =
        (a.session.scopes.put top.scope (Table.underlay flow.vars vars)).get? scope
      rw [hdeclared, Scopes.get?_put_same hvars, hbeside.session.scopes]
    · have hlevels : (a.charged.adopt (((a.charged.scene top vars).popStep.logging
          (.plain id StepKind.callFlow.name .success)).declare flow)).session.levels =
          ⟨top.popStep.log (.plain id StepKind.callFlow.name .success) :: callers, suspended⟩ :=
        levels_adopt hla _
      simp only [Scene.outcome, levels_withLevels, hlevels, Levels.push, hlb]
      refine .intro hcaller ⟨⟨body, hbody, ?_⟩, hframe.scope, ?_, ?_, ⟨rfl, ?_⟩, rfl, ?_⟩
      · rw [hframesteps, List.append_assoc]
      · rw [hframe.pending, hpending]
        rfl
      · rintro target ⟨⟩
      · exact hframe.undisturbed.2
      · exact hframe.fresh.2

end Rounds

/-- Unless a limit is reached, every round of a turn with called flows either concerns a called flow
alone or has a counterpart in the turn without them. -/
theorem Unrolls.pace (h : a.Unrolls engine.library suspended b) (ha : a.session.InOrder)
    (hb : b.session.InOrder)
    (hlimits : a.SparesLimits engine) :
    Pace engine suspended a b := by
  obtain ⟨hbeside, hlevels⟩ := h
  generalize hla : a.session.levels = left at hlevels
  generalize hlb : b.session.levels = right at hlevels
  cases hlevels with
  | @intro top frame callers later hcallers hframe =>
      have hactive := ha.wellAccounted.running top (by simp [hla])
      have hactive' := hb.wellAccounted.running frame (by simp [hlb])
      have hbudget := budget_of_step hla hlimits
      obtain ⟨vars, hvars⟩ := ha.exists_vars (by rw [hla]; rfl)
      obtain ⟨now, hnow, hframesteps⟩ := hframe.steps
      generalize hsteps : top.steps = steps at hnow
      cases hnow with
      | nil =>
          exact complete_pace hbeside hla hlb hcallers hframe hactive hbudget hactive' hsteps
      | kept hstep hrest =>
          exact kept_pace hbeside hla hlb hcallers hframe hactive hbudget hactive' hstep hsteps
            hvars
      | called hflow hnone hbody hrest =>
          exact called_pace hbeside hla hlb hcallers hframe hactive hbudget hsteps hflow
            hnone hbody hrest hframesteps hvars hlimits

end Turn

end Parley
