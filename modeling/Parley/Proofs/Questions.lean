import Parley.Proofs.Conversations

/-!
# Frames that wait for an answer

Only the frame that runs may wait for an answer, and then its next step is the
question whose answer it waits for.  After a round with which the turn goes on no
frame waits at all: only a question can make one wait, and a question ends the
turn.
-/

set_option autoImplicit false

namespace Parley

/-- A frame that waits for an answer has the question as its next step, and waits for the variable
that the question names. -/
def Frame.Asking (frame : Frame) : Prop :=
  ∀ target, frame.pendingVariable = some target →
    ∃ id message rest, frame.steps = .ask id message (some target) :: rest

/-- A frame whose next step is no question with a variable does not wait. -/
theorem Frame.Asking.pendingVariable {frame : Frame} {step : Step} {rest : List Step}
    (h : frame.Asking) (hsteps : frame.steps = step :: rest)
    (hstep : ∀ id message target, step ≠ .ask id message (some target)) :
    frame.pendingVariable = none := by
  cases hpending : frame.pendingVariable with
  | none => rfl
  | some target =>
      obtain ⟨id, message, later, hask⟩ := h target hpending
      rw [hsteps] at hask
      cases hask
      exact absurd rfl (hstep id message target)

namespace Levels

/-- No frame waits for an answer. -/
def Quiet (levels : Levels) : Prop :=
  ∀ frame ∈ levels.frames, frame.pendingVariable = none

/-- No frame waits for an answer, except that the one that runs may wait for the answer to the
question that is its next step. -/
structure AsksOnTop (levels : Levels) : Prop where
  top : ∀ frame ∈ levels.top?, frame.Asking
  others : levels.pop.1.Quiet

section Quiet

variable {frame : Frame} {callers : Level} {suspended : List Level}

theorem quiet_cons : (Levels.mk (frame :: callers) suspended).Quiet ↔
    frame.pendingVariable = none ∧ (Levels.mk callers suspended).Quiet := by
  simp [Quiet, frames, inward]

theorem asksOnTop_cons : (Levels.mk (frame :: callers) suspended).AsksOnTop ↔
    frame.Asking ∧ (Levels.mk callers suspended).Quiet := by
  constructor
  · rintro ⟨htop, hothers⟩
    exact ⟨htop frame rfl, hothers⟩
  · rintro ⟨hframe, hothers⟩
    refine ⟨?_, hothers⟩
    intro other hother
    cases hother
    exact hframe

theorem asksOnTop_nil : (Levels.mk [] suspended).AsksOnTop ↔ (Levels.mk [] suspended).Quiet := by
  constructor
  · exact AsksOnTop.others
  · intro h
    refine ⟨?_, h⟩
    intro frame hframe
    cases hframe

/-- A frame that does not wait asks for nothing. -/
theorem Quiet.asksOnTop {levels : Levels} (h : levels.Quiet) : levels.AsksOnTop := by
  obtain ⟨current, suspended⟩ := levels
  cases current with
  | nil => exact asksOnTop_nil.2 h
  | cons frame callers =>
      obtain ⟨hframe, hothers⟩ := quiet_cons.1 h
      refine asksOnTop_cons.2 ⟨?_, hothers⟩
      intro target htarget
      rw [hframe] at htarget
      cases htarget

/-- Without the frames of the innermost level no frame waits. -/
theorem AsksOnTop.drain {levels : Levels} (h : levels.AsksOnTop) : levels.drain.1.Quiet := by
  intro frame hframe
  refine h.others frame (mem_frames.2 (.inr ?_))
  rcases mem_frames.1 hframe with hnone | hsuspended
  · cases hnone
  · exact hsuspended

end Quiet

end Levels

/-- Frames that are alike wait alike. -/
theorem Frame.Alike.asking {before after : Frame} (h : before.Alike after)
    (hasking : before.Asking) : after.Asking := by
  intro target htarget
  rw [h.steps]
  exact hasking target (h.pendingVariable ▸ htarget)

theorem Session.Touched.asksOnTop {before after : Session} (h : before.Touched after)
    (hasks : before.levels.AsksOnTop) : after.levels.AsksOnTop := by
  rcases hlevels : before.levels with ⟨current, suspended⟩
  rw [hlevels] at hasks
  cases current with
  | nil =>
      rw [h.levels_eq_of_nil hlevels]
      exact hasks
  | cons frame callers =>
      obtain ⟨frame', halike, hafter⟩ := h.levels_eq hlevels
      obtain ⟨hframe, hothers⟩ := Levels.asksOnTop_cons.1 hasks
      rw [hafter]
      exact Levels.asksOnTop_cons.2 ⟨halike.asking hframe, hothers⟩

namespace Turn

variable {engine : Engine} {turn : Turn}

/-! ## What a step does to the frames that wait -/

/-- A reboot leaves no frame that waits. -/
theorem restart_quiet (turn : Turn) (scene : Scene) (flow : Option Definition) :
    (turn.settle ⟨scene, .ok (.restart flow)⟩).1.session.levels.Quiet := by
  rcases settle_restart turn scene flow with
    ⟨hlevels, -⟩ | ⟨f, initial, hlevels, -, -, -, hpending, -⟩
  · rw [hlevels]
    simp [Levels.Quiet, Levels.empty, Levels.frames, Levels.inward]
  · rw [hlevels]
    simp [Levels.Quiet, Levels.frames, Levels.inward, hpending]

theorem settle_asks (turn : Turn) {frame : Frame} {callers : Level} {suspended : List Level}
    {stage : Stage} {step : Step} {rest : List Step} {vars : Fields} {outcome : Outcome}
    (hlevels : turn.session.levels = ⟨frame :: callers, suspended⟩)
    (hsteps : frame.steps = step :: rest) (hasks : turn.session.levels.AsksOnTop)
    (heffect : Effect stage step (turn.scene frame vars) outcome) :
    (turn.settle outcome).1.session.levels.AsksOnTop ∧
      ((turn.settle outcome).2 = .ok .running → (turn.settle outcome).1.session.levels.Quiet) := by
  rw [hlevels] at hasks
  obtain ⟨hframe, hothers⟩ := Levels.asksOnTop_cons.1 hasks
  have hplain : step.kind ≠ .ask → frame.pendingVariable = none := by
    intro hkind
    apply hframe.pendingVariable hsteps
    rintro id message target rfl
    exact hkind rfl
  have hquiet : (turn.settle outcome).1.session.levels.Quiet →
      (turn.settle outcome).1.session.levels.AsksOnTop ∧
        ((turn.settle outcome).2 = .ok .running →
          (turn.settle outcome).1.session.levels.Quiet) :=
    fun hafter => ⟨hafter.asksOnTop, fun _ => hafter⟩
  have hlevel := levels_settle hlevels outcome
  -- of all effects only that of a question with a variable leaves a frame that waits
  cases heffect with
  | proceeded after pushed hkind hcontinues hafter hpushed hpending hinput =>
      apply hquiet
      rw [hlevel (by simp)]
      exact Levels.quiet_cons.2 ⟨hpending.trans (hplain hkind), hothers⟩
  | answered after target input hkind hwaiting hsaid hcontinues hafter hpending hvars hinput =>
      apply hquiet
      rw [hlevel (by simp)]
      exact Levels.quiet_cons.2 ⟨hpending, hothers⟩
  | asked after id message target hstep hready hcontinues hafter hpending hshown hsaid hvars
      hinput =>
      refine ⟨?_, fun hrunning => by cases hrunning⟩
      rw [hlevel (by simp)]
      refine Levels.asksOnTop_cons.2 ⟨?_, hothers⟩
      intro waiting hwaiting
      rw [hpending] at hwaiting
      cases hwaiting
      exact ⟨id, message, rest, by rw [hafter, ← hstep]; exact hsteps⟩
  | remarked after id message hstep hready hcontinues hafter hpending hsaid hvars hinput =>
      have hnone : frame.pendingVariable = none := by
        apply hframe.pendingVariable hsteps
        rintro _ _ _ rfl
        cases hstep
      apply hquiet
      rw [hlevel (by simp)]
      exact Levels.quiet_cons.2 ⟨hpending.trans hnone, hothers⟩
  | gaveUp after hkind hcontinues hinput =>
      apply hquiet
      rw [hlevel (by simp)]
      exact hothers
  | entered after flow initiator hkind hroom hcontinues hafter hpending hinput =>
      have hcaller := hpending.trans (hplain (by simp [hkind]))
      apply hquiet
      rw [hlevel (by simp)]
      exact Levels.quiet_cons.2 ⟨rfl, Levels.quiet_cons.2 ⟨hcaller, hothers⟩⟩
  | replaced after flow initiator closed hkind hafter hclosed hreason hinput =>
      apply hquiet
      rw [hlevel (by simp)]
      exact Levels.quiet_cons.2 ⟨by rw [hafter]; rfl, hothers⟩
  | rebooted after id key flow hstep hflow hafter hinput =>
      exact hquiet (restart_quiet turn after flow)
  | failed error hkind herror =>
      apply hquiet
      rw [hlevel (by simp)]
      exact Levels.quiet_cons.2 ⟨hplain hkind, hothers⟩

/-- A step leaves only the frame that runs waiting, and none if the turn goes on. -/
theorem step_asks (engine : Engine) (horder : turn.session.InOrder)
    (hasks : turn.session.levels.AsksOnTop) :
    (turn.step engine).1.session.levels.AsksOnTop ∧
      ((turn.step engine).2 = .ok .running → (turn.step engine).1.session.levels.Quiet) := by
  have hmove := step_move engine horder
  generalize turn.step engine = result at hmove
  cases hmove with
  | idled hlevels => exact ⟨hasks, fun hrunning => by cases hrunning⟩
  | resumed frame callers below hlevels =>
      rw [hlevels] at hasks
      have hquiet : (Levels.mk (resumed turn.session.userId frame :: callers) below).Quiet := by
        have hothers := hasks.others
        simp only [Levels.Quiet, Levels.frames, Levels.inward, Levels.pop] at hothers ⊢
        simpa [resumed] using hothers
      exact ⟨hquiet.asksOnTop, fun _ => hquiet⟩
  | exhausted frame callers suspended hlevels hlimit =>
      exact ⟨hasks, fun hrunning => by cases hrunning⟩
  | finished frame callers suspended hlevels hlimit hsteps =>
      rw [hlevels] at hasks
      exact ⟨hasks.others.asksOnTop, fun _ => hasks.others⟩
  | performed frame callers suspended step rest vars outcome hlevels hlimit hsteps hvars heffect =>
      exact settle_asks turn.charged hlevels hsteps hasks heffect

/-! ## Whole runs -/

theorem round_quiet {next : Turn} (horder : turn.session.InOrder)
    (hasks : turn.session.levels.AsksOnTop) (h : turn.round engine = .onward next) :
    next.session.levels.Quiet := by
  obtain ⟨hafter, hrunning⟩ := step_asks engine horder hasks
  rcases round_onward h with hstep | ⟨failed, error, hstep, -, rfl⟩
  · rw [hstep] at hrunning
    exact hrunning rfl
  · rw [hstep] at hafter
    exact hafter.drain

theorem ended_asks {final : Turn} (horder : turn.session.InOrder)
    (hasks : turn.session.levels.AsksOnTop) (h : turn.round engine = .ended final) :
    final.session.levels.AsksOnTop := by
  obtain ⟨hafter, -⟩ := step_asks engine horder hasks
  rcases round_ended h with hstep | ⟨idle, hstep, rfl⟩ | ⟨failed, error, hstep, -, rfl⟩
  · rwa [hstep] at hafter
  · rw [hstep] at hafter
    rwa [(levels_concluded engine idle).1]
  · rw [hstep] at hafter
    exact hafter.drain.asksOnTop

/-- At the beginning of every round but the first no frame waits, and at the end of the run at most
the frame that runs does. -/
theorem Runs.asks {trail : List Turn} {final : Turn} (hrun : Runs engine turn trail final)
    (horder : turn.session.InOrder) (hasks : turn.session.levels.AsksOnTop) :
    (∀ t ∈ trail.tail, t.session.levels.Quiet) ∧ final.session.levels.AsksOnTop := by
  induction hrun with
  | last hround => exact ⟨by simp, ended_asks horder hasks hround⟩
  | more hround hrest ih =>
      have hquiet := round_quiet horder hasks hround
      obtain ⟨hlater, hfinal⟩ := ih (round_inOrder horder hround) hquiet.asksOnTop
      refine ⟨?_, hfinal⟩
      intro t ht
      cases hrest with
      | last hended =>
          obtain rfl := List.mem_singleton.1 ht
          exact hquiet
      | more honward hmore =>
          rcases List.mem_cons.1 ht with rfl | hin
          · exact hquiet
          · exact hlater t hin

/-! ## How turns begin -/

theorem carryOut_asks {frame : Frame} {callers : Level} {suspended : List Level}
    (hlevels : turn.session.levels = ⟨frame :: callers, suspended⟩)
    (hasks : turn.session.levels.AsksOnTop) (engine : Engine) (named : Frame)
    (reaction : Reaction) :
    (turn.carryOut engine named reaction).turn.session.levels.AsksOnTop := by
  cases reaction with
  | cancel =>
      obtain ⟨after, hafter, hdrained, -⟩ := cancel_running hlevels engine
      have hquiet := hasks.drain
      rw [hlevels] at hquiet
      simp only [carryOut, hafter, Opening.turn, hdrained]
      exact hquiet.asksOnTop
  | help => exact hasks
  | status => exact hasks
  | stay => exact hasks
  | confirm flow => exact (touched_requestConfirmation turn flow).asksOnTop hasks
  | interrupt flow =>
      have hothers := hasks.others
      rw [hlevels] at hothers
      have hquiet : (turn.switchTo flow).session.levels.Quiet := by
        rw [levels_switchTo hlevels]
        simp only [Levels.Quiet, Levels.frames, Levels.inward, Levels.pop] at hothers ⊢
        simpa [Frame.start, paused] using hothers
      exact hquiet.asksOnTop
  | goOn => exact hasks

theorem welcome_asks {suspended : List Level}
    (hlevels : turn.session.levels = ⟨[], suspended⟩) (hasks : turn.session.levels.AsksOnTop)
    (engine : Engine) (input : String) :
    (turn.welcome engine input).turn.session.levels.AsksOnTop := by
  have hothers := hasks.others
  rw [hlevels] at hothers
  unfold welcome
  simp only
  split
  · exact hasks
  · exact hasks
  · apply Levels.Quiet.asksOnTop
    simp only [Opening.turn, withoutInput, activate, withSession, hlevels, Levels.push]
    exact Levels.quiet_cons.2 ⟨rfl, hothers⟩

theorem run_asks (horder : turn.session.InOrder) (hasks : turn.session.levels.AsksOnTop)
    (engine : Engine) : (turn.run engine).1.session.levels.AsksOnTop := by
  rw [(session_run engine turn).1]
  exact ((runs_drive engine turn).asks horder hasks).2

end Turn

namespace Engine

variable {engine : Engine} {session : Session} {exchange : Exchange}

theorem opening_asks (engine : Engine) (hasks : session.levels.AsksOnTop)
    (hrole : exchange.entry.role = .user) :
    (engine.opening exchange.journal session exchange.entry).turn.session.levels.AsksOnTop := by
  rcases hlevels : session.levels with ⟨current, suspended⟩
  cases current with
  | nil =>
      obtain ⟨hopening, hheard⟩ := opening_of_nil engine exchange hlevels
      rw [hopening]
      exact Turn.welcome_asks hheard ((Session.touched_hear _ _).asksOnTop hasks) engine _
  | cons frame callers =>
      obtain ⟨turn, named, reaction, -, hopening, htouched, -⟩ :=
        opening_of_frame engine hrole hlevels
      obtain ⟨frame', -, hturn⟩ := htouched.levels_eq hlevels
      rw [hopening]
      exact Turn.carryOut_asks hturn (htouched.asksOnTop hasks) engine named reaction

theorem next_asks (horder : session.InOrder) (hasks : session.levels.AsksOnTop)
    (exchange : Exchange) : (engine.next session exchange).levels.AsksOnTop := by
  rcases next_cases engine session exchange with htouched | ⟨turn, hrole, hopening, hnext, -⟩
  · exact htouched.asksOnTop hasks
  · have hordered := opening_inOrder engine horder hrole
    have hasking := opening_asks engine hasks hrole
    rw [hopening] at hordered hasking
    rw [hnext]
    exact Turn.run_asks hordered hasking engine

/-- In every session that an engine leads only the frame that runs may wait for an answer, and the
question is its next step. -/
theorem Reachable.asksOnTop (h : engine.Reachable session) : session.levels.AsksOnTop := by
  induction h with
  | start userId id =>
      apply Levels.Quiet.asksOnTop
      simp [Levels.Quiet, Levels.frames, Levels.inward, startSession, Session.start, Levels.empty]
  | next hsession exchange ih => exact next_asks hsession.inOrder ih exchange

end Engine

end Parley
