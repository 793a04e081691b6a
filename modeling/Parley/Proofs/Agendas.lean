import Parley.Proofs.Beginnings
import Parley.Proofs.Tasks

/-!
# What frames are about to do

The agenda of a frame is the flow it runs and the steps it still has.  Rounds and
the beginnings of turns shift agendas in a few ways only: frames are dropped from
the top, a flow of the library comes on top, or the topmost agenda advances past
the step that was dispatched.  What such shifts preserve holds of every frame of
every session that an engine leads.
-/

set_option autoImplicit false

namespace Parley

/-- The flow that a frame runs and the steps it still has. -/
structure Agenda where
  flow : String
  steps : List Step

/-- The agenda of a flow that has just been started. -/
def Definition.agenda (flow : Definition) : Agenda :=
  ⟨flow.name, flow.steps⟩

def Frame.agenda (frame : Frame) : Agenda :=
  ⟨frame.flowName, frame.steps⟩

/-- The agendas of all frames, the innermost first. -/
def Levels.agendas (levels : Levels) : List Agenda :=
  levels.frames.map Frame.agenda

/-- What holds of the flows of a library when they are started, and is kept by agendas that
advance. -/
structure Agenda.Kept (library : Library) (P : Agenda → Prop) : Prop where
  start : ∀ key flow, library.get? key = some flow → P flow.agenda
  advance : ∀ step name later (pushed : Option Step), P ⟨name, step :: later⟩ →
    (∀ next ∈ pushed, step.Yields next) → P ⟨name, pushed.toList ++ later⟩

/-- What holds of all steps of the flows of a library, and of what such steps put in their places,
is kept for all steps of agendas. -/
theorem Agenda.kept_of_yields {library : Library} {P : Step → Prop}
    (hstart : ∀ key flow, library.get? key = some flow → ∀ step ∈ flow.steps, P step)
    (hyields : ∀ step next : Step, P step → step.Yields next → P next) :
    Agenda.Kept library fun agenda => ∀ step ∈ agenda.steps, P step := by
  constructor
  · exact hstart
  · intro step name later pushed hall hpushed next hnext
    rcases List.mem_append.1 hnext with htaken | hlater
    · exact hyields step next (hall step List.mem_cons_self)
        (hpushed next (Option.mem_toList.1 htaken))
    · exact hall next (List.mem_cons_of_mem _ hlater)

/-- How agendas change while a step is dispatched, or while none is. -/
inductive Shift (library : Library) : Option Step → List Agenda → List Agenda → Prop where
  /-- Frames are dropped from the top, or all stay as they are. -/
  | dropped (step? : Option Step) (gone rest : List Agenda)
      (hkept : ∀ step ∈ step?, ¬step.Swaps library) : Shift library step? (gone ++ rest) rest
  /-- A flow is started on top. -/
  | started (key : String) (flow : Definition) (rest : List Agenda)
      (hflow : library.get? key = some flow) : Shift library none rest (flow.agenda :: rest)
  /-- The step is done, or another one takes its place. -/
  | advanced (step : Step) (name : String) (later : List Step) (pushed : Option Step)
      (rest : List Agenda) (hpushed : ∀ next ∈ pushed, step.Yields next)
      (hkept : ¬step.Swaps library) :
      Shift library (some step) (⟨name, step :: later⟩ :: rest)
        (⟨name, pushed.toList ++ later⟩ :: rest)
  /-- The step is done, and the flow that it calls comes on top. -/
  | entered (id key name : String) (later : List Step) (flow : Definition) (rest : List Agenda)
      (hflow : library.get? key = some flow) :
      Shift library (some (.callFlow id key .call))
        (⟨name, .callFlow id key .call :: later⟩ :: rest)
        (flow.agenda :: ⟨name, later⟩ :: rest)
  /-- Another flow takes over the frame. -/
  | swapped (id key name : String) (later : List Step) (flow : Definition) (rest : List Agenda)
      (hflow : library.get? key = some flow) :
      Shift library (some (.callFlow id key .replace))
        (⟨name, .callFlow id key .replace :: later⟩ :: rest) (flow.agenda :: rest)
  /-- All frames are dropped, and the target starts anew if it is known. -/
  | rebooted (id key : String) (before : List Agenda) :
      Shift library (some (.callFlow id key .reboot)) before
        ((library.get? key).map Definition.agenda).toList

namespace Shift

variable {library : Library} {step? : Option Step} {before after : List Agenda}

theorem refl (library : Library) (agendas : List Agenda) : Shift library none agendas agendas :=
  .dropped none [] agendas (by simp)

theorem dropped_by {step : Step} (hkept : ¬step.Swaps library) (gone rest : List Agenda) :
    Shift library (some step) (gone ++ rest) rest :=
  .dropped (some step) gone rest (by simpa using hkept)

theorem preserves {P : Agenda → Prop} (hkept : Agenda.Kept library P)
    (h : Shift library step? before after) (hbefore : ∀ agenda ∈ before, P agenda) :
    ∀ agenda ∈ after, P agenda := by
  intro agenda hmem
  cases h with
  | dropped step? gone rest hkept' => exact hbefore agenda (List.mem_append_right gone hmem)
  | started key flow rest hflow =>
      rcases List.mem_cons.1 hmem with rfl | hrest
      · exact hkept.start key flow hflow
      · exact hbefore agenda hrest
  | advanced step name later pushed rest hpushed hkept' =>
      rcases List.mem_cons.1 hmem with rfl | hrest
      · exact hkept.advance step name later pushed (hbefore _ List.mem_cons_self) hpushed
      · exact hbefore agenda (List.mem_cons_of_mem _ hrest)
  | entered id key name later flow rest hflow =>
      rcases List.mem_cons.1 hmem with rfl | hbelow
      · exact hkept.start key flow hflow
      · rcases List.mem_cons.1 hbelow with rfl | hrest
        · exact hkept.advance _ name later none (hbefore _ List.mem_cons_self) (by simp)
        · exact hbefore agenda (List.mem_cons_of_mem _ hrest)
  | swapped id key name later flow rest hflow =>
      rcases List.mem_cons.1 hmem with rfl | hrest
      · exact hkept.start key flow hflow
      · exact hbefore agenda (List.mem_cons_of_mem _ hrest)
  | rebooted id key before =>
      obtain ⟨flow, hflow, rfl⟩ := Option.map_eq_some_iff.1 (Option.mem_toList.1 hmem)
      exact hkept.start key flow hflow

end Shift

/-! ## Agendas of levels -/

namespace Levels

@[simp] theorem agendas_mk (current : Level) (suspended : List Level) :
    (Levels.mk current suspended).agendas =
      current.map Frame.agenda ++ suspended.flatten.map Frame.agenda := by
  simp [agendas, frames, inward]

theorem mem_agendas {levels : Levels} {frame : Frame} (h : frame ∈ levels.frames) :
    frame.agenda ∈ levels.agendas :=
  List.mem_map_of_mem h

end Levels

@[simp] theorem Frame.agenda_start (flow : Definition) (scope : Nat) (transaction : Transaction) :
    (Frame.start flow scope transaction).agenda = flow.agenda := rfl

@[simp] theorem Frame.agenda_resumed (userId : String) (frame : Frame) :
    (Turn.resumed userId frame).agenda = frame.agenda := rfl

theorem Frame.Alike.agenda {before after : Frame} (h : before.Alike after) :
    after.agenda = before.agenda := by
  simp only [Frame.agenda, h.flowName, h.steps]

theorem Frame.Continues.agenda {before after : Frame} (h : before.Continues after)
    {steps : List Step} (hsteps : after.steps = steps) :
    after.agenda = ⟨before.flowName, steps⟩ := by
  simp only [Frame.agenda, h.flow, hsteps]

/-- The beginning of a turn shifts the agendas of the session. -/
theorem Begun.shift {library : Library} {before after : Levels} (h : Begun library before after) :
    Shift library none before.agendas after.agendas := by
  cases h with
  | kept frame frame' callers suspended hbefore halike =>
      subst hbefore
      simp only [Levels.agendas_mk, List.map_cons, halike.agenda]
      exact .refl library _
  | cancelled frame callers suspended hbefore =>
      subst hbefore
      simp only [Levels.agendas_mk, List.map_nil, List.nil_append]
      exact .dropped _ _ _ (by simp)
  | interrupted frame frame' callers suspended key flow scope transaction hbefore halike hflow =>
      subst hbefore
      have hpaused : (Turn.paused frame').agenda = frame.agenda := halike.agenda
      simp only [Levels.agendas_mk, List.map_cons, List.map_nil, List.flatten_cons,
        List.map_append, hpaused, Frame.agenda_start, List.nil_append, List.cons_append]
      exact .started key flow _ hflow
  | welcomed suspended key flow scope transaction hbefore hflow =>
      subst hbefore
      simp only [Levels.agendas_mk, List.map_cons, List.map_nil, Frame.agenda_start,
        List.nil_append, List.cons_append]
      exact .started key flow _ hflow

/-! ## Rounds -/

namespace Turn

variable {engine : Engine} {turn : Turn}

/-- The agendas after a step that leaves the frame that runs as `frame`. -/
theorem agendas_settle {top : Frame} {callers : Level} {suspended : List Level} {outcome : Outcome}
    (hlevels : turn.session.levels = ⟨top :: callers, suspended⟩)
    (hnext : ∀ flow, outcome.next ≠ .ok (.restart flow)) :
    (turn.settle outcome).1.session.levels.agendas =
      (levelAfter outcome.scene.frame callers outcome.next).map Frame.agenda ++
        suspended.flatten.map Frame.agenda := by
  rw [levels_settle hlevels outcome hnext, Levels.agendas_mk]

theorem agendas_before {frame : Frame} {callers : Level} {suspended : List Level} {step : Step}
    {later : List Step} (hlevels : turn.session.levels = ⟨frame :: callers, suspended⟩)
    (hsteps : frame.steps = step :: later) :
    turn.session.levels.agendas =
      ⟨frame.flowName, step :: later⟩ ::
        (callers.map Frame.agenda ++ suspended.flatten.map Frame.agenda) := by
  simp [hlevels, Frame.agenda, hsteps]

/-- A step whose frame goes on past it advances the agenda of the frame. -/
theorem settle_advanced {frame : Frame} {callers : Level} {suspended : List Level} {step : Step}
    {later : List Step} {pushed : Option Step} {outcome : Outcome} {next : Next}
    (hlevels : turn.session.levels = ⟨frame :: callers, suspended⟩)
    (hsteps : frame.steps = step :: later) (hnext : outcome.next = .ok next)
    (hstays : next = .proceed ∨ next = .await) (hframe : frame.Continues outcome.scene.frame)
    (hafter : outcome.scene.frame.steps = pushed.toList ++ later)
    (hpushed : ∀ taken ∈ pushed, step.Yields taken) (hkept : ¬step.Swaps engine.library) :
    Shift engine.library (some step) turn.session.levels.agendas
      (turn.settle outcome).1.session.levels.agendas := by
  have hagenda := hframe.agenda hafter
  have hlevel : levelAfter outcome.scene.frame callers outcome.next =
      outcome.scene.frame :: callers := by
    rw [hnext]
    rcases hstays with rfl | rfl <;> rfl
  have hrestart : ∀ flow, outcome.next ≠ .ok (.restart flow) := by
    rw [hnext]
    rcases hstays with rfl | rfl <;> simp
  rw [agendas_settle hlevels hrestart, agendas_before hlevels hsteps, hlevel]
  simp only [List.map_cons, List.cons_append, hagenda]
  exact .advanced step _ later pushed _ hpushed hkept

/-- A step that is performed shifts the agendas according to its effect. -/
theorem settle_shift {frame : Frame} {callers : Level} {suspended : List Level} {step : Step}
    {later : List Step} {vars : Fields} {outcome : Outcome}
    (hlevels : turn.session.levels = ⟨frame :: callers, suspended⟩)
    (hsteps : frame.steps = step :: later)
    (heffect : Effect (turn.stage engine) step (turn.scene frame vars) outcome) :
    Shift engine.library (some step) turn.session.levels.agendas
      (turn.settle outcome).1.session.levels.agendas := by
  have hbefore := agendas_before hlevels hsteps
  have htail : frame.steps.tail = later := by rw [hsteps, List.tail_cons]
  cases heffect with
  | proceeded after pushed hkind hframe hafter hpushed hpending hinput hkept =>
      have hrest := hafter.trans (congrArg (pushed.toList ++ ·) htail)
      exact settle_advanced hlevels hsteps rfl (.inl rfl) hframe hrest hpushed hkept
  | answered after target input hkind hwaiting hsaid hframe hafter hpending hvars hinput =>
      have hkept : ¬step.Swaps engine.library := Step.not_swaps_of_kind (by simp [hkind])
      have hrest : after.frame.steps = (none : Option Step).toList ++ later := hafter.trans htail
      exact settle_advanced hlevels hsteps rfl (.inl rfl) hframe hrest (by simp) hkept
  | asked after id message target hstep hready hframe hafter hpending hshown hsaid hvars hinput =>
      have hagenda := hframe.agenda (hafter.trans hsteps)
      rw [agendas_settle hlevels (by simp), hbefore]
      simp only [levelAfter, List.map_cons, List.cons_append, hagenda]
      exact .dropped_by (Step.not_swaps_of_kind (by simp [hstep, Step.kind])) [] _
  | remarked after id message hstep hready hframe hafter hpending hsaid hvars hinput =>
      have hkept : ¬step.Swaps engine.library :=
        Step.not_swaps_of_kind (by simp [hstep, Step.kind])
      have hrest : after.frame.steps = (none : Option Step).toList ++ later := hafter.trans htail
      exact settle_advanced hlevels hsteps rfl (.inr rfl) hframe hrest (by simp) hkept
  | gaveUp after hkind hframe hinput =>
      rw [agendas_settle hlevels (by simp), hbefore]
      exact .dropped_by (Step.not_swaps_of_kind (by simp [hkind])) [_] _
  | entered after flow initiator hkind hroom hframe hafter hpending hinput htarget =>
      obtain ⟨id, key, rfl, hflow⟩ := htarget
      have hagenda := hframe.agenda (hafter.trans htail)
      rw [agendas_settle hlevels (by simp), hbefore]
      simp only [levelAfter, List.map_cons, List.cons_append, hagenda, Frame.agenda_start]
      exact .entered id key _ later flow _ hflow
  | replaced after flow initiator closed hkind hframe hclosed hreason hinput htarget =>
      obtain ⟨id, key, rfl, hflow⟩ := htarget
      have hagenda : after.frame.agenda = flow.agenda := by
        rw [hframe]
        rfl
      rw [agendas_settle hlevels (by simp), hbefore]
      simp only [levelAfter, List.map_cons, List.cons_append, hagenda]
      exact .swapped id key _ later flow _ hflow
  | rebooted after id key flow hstep hflow hframe hinput =>
      subst hstep hflow
      have hshown : (turn.settle
          ⟨after, .ok (.restart (engine.library.get? key))⟩).1.session.levels.agendas =
            ((engine.library.get? key).map Definition.agenda).toList := by
        cases engine.library.get? key with
        | none => rfl
        | some flow => rfl
      have hstage : (turn.stage engine).engine.library.get? key = engine.library.get? key := rfl
      rw [hstage, hshown]
      exact .rebooted id key _
  | failed error hkind herror hkept =>
      rw [agendas_settle hlevels (by simp), hbefore]
      have hagenda : frame.agenda = ⟨frame.flowName, step :: later⟩ := by
        simp only [Frame.agenda, hsteps]
      simp only [levelAfter, scene, List.map_cons, List.cons_append, hagenda]
      exact .dropped_by hkept [] _

/-- A step shifts the agendas according to the task of the round.  If it fails, it leaves the levels
as they were, and has handed no frame to another flow. -/
theorem step_shift (engine : Engine) (horder : turn.session.InOrder) :
    Shift engine.library (turn.task engine).step? turn.session.levels.agendas
        (turn.step engine).1.session.levels.agendas ∧
      ∀ error, (turn.step engine).2 = .error error →
        (turn.step engine).1.session.levels = turn.session.levels ∧
          ∀ step ∈ (turn.task engine).step?, ¬step.Swaps engine.library := by
  have hmove := step_move engine horder
  generalize turn.step engine = result at hmove ⊢
  cases hmove with
  | idled hlevels =>
      have htask : turn.task engine = .rest := by simp [task, hlevels, Levels.empty, Levels.top?]
      rw [htask]
      exact ⟨.refl _ _, fun _ herror => by cases herror⟩
  | resumed frame callers below hlevels =>
      have htask : turn.task engine = .resume := by simp [task, hlevels, Levels.top?]
      have hafter : (turn.resumedAt engine frame callers below).session.levels =
          ⟨resumed turn.session.userId frame :: callers, below⟩ := rfl
      rw [htask, hafter, hlevels]
      simp only [Levels.agendas_mk, List.map_cons, List.map_nil, List.flatten_cons,
        List.map_append, Frame.agenda_resumed, List.nil_append, List.cons_append]
      exact ⟨.refl _ _, fun _ herror => by cases herror⟩
  | exhausted frame callers suspended hlevels hlimit =>
      have htask : turn.task engine = .stop := by simp [task, hlevels, Levels.top?, hlimit]
      rw [htask]
      exact ⟨.refl _ _, fun _ _ => ⟨rfl, by simp [Task.step?]⟩⟩
  | finished frame callers suspended hlevels hlimit hsteps =>
      have hwithin : ¬engine.settings.maxSteps < turn.taken + 1 := Nat.not_lt.2 hlimit
      have htask : turn.task engine = .complete frame := by
        simp [task, hlevels, Levels.top?, hwithin, hsteps]
      rw [htask, levels_withLevels, hlevels]
      simp only [Levels.agendas_mk, List.map_cons, List.cons_append]
      exact ⟨.dropped none [frame.agenda] _ (by simp), fun _ herror => by cases herror⟩
  | performed frame callers suspended step rest vars outcome hlevels hlimit hsteps hvars heffect =>
      have htop : turn.session.levels.top? = some frame := by rw [hlevels]; rfl
      have htask : turn.task engine = .dispatch frame step :=
        task_eq_dispatch.2 ⟨htop, hlimit, rest, hsteps⟩
      have hcharged : turn.charged.session.levels = ⟨frame :: callers, suspended⟩ := hlevels
      rw [htask]
      refine ⟨settle_shift hcharged hsteps heffect, ?_⟩
      intro error herror
      cases heffect with
      | failed cause hkind hcause hkept =>
          rw [levels_settle hcharged _ (by simp)]
          refine ⟨hlevels.symm, ?_⟩
          intro other hother
          cases hother
          exact hkept
      | _ => cases herror

/-- A round shifts the agendas according to its task, whether it ends the turn or not. -/
theorem round_shift {next : Turn} (horder : turn.session.InOrder)
    (h : turn.round engine = .onward next ∨ turn.round engine = .ended next) :
    Shift engine.library (turn.task engine).step? turn.session.levels.agendas
      next.session.levels.agendas := by
  obtain ⟨hshift, hfails⟩ := step_shift engine horder
  have haborted : ∀ failed error, turn.step engine = (failed, .error error) →
      Shift engine.library (turn.task engine).step? turn.session.levels.agendas
        (failed.abort engine error).session.levels.agendas := by
    intro failed error hfailed
    obtain ⟨hlevels, hkept⟩ := hfails error (by rw [hfailed])
    rw [hfailed] at hlevels
    have hdrained : (failed.abort engine error).session.levels =
        ⟨[], turn.session.levels.suspended⟩ := by
      rw [← hlevels]
      rfl
    have hbefore : turn.session.levels.agendas = turn.session.levels.current.map Frame.agenda ++
        turn.session.levels.suspended.flatten.map Frame.agenda := Levels.agendas_mk _ _
    rw [hdrained, hbefore]
    simp only [Levels.agendas_mk, List.map_nil, List.nil_append]
    exact .dropped _ _ _ hkept
  rcases h with honward | hended
  · rcases round_onward honward with hrunning | ⟨failed, error, hfailed, -, rfl⟩
    · rwa [hrunning] at hshift
    · exact haborted failed error hfailed
  · rcases round_ended hended with hblocked | ⟨idle, hdone, rfl⟩ | ⟨failed, error, hfailed, -, rfl⟩
    · rwa [hblocked] at hshift
    · rw [hdone] at hshift
      rwa [(levels_concluded engine idle).1]
    · exact haborted failed error hfailed

/-- What is kept by agendas holds at the beginning of every round of a run and at its end. -/
theorem Runs.agendas {P : Agenda → Prop} (hkept : Agenda.Kept engine.library P)
    {rounds : List Turn} {final : Turn} (hrun : Runs engine turn rounds final)
    (horder : turn.session.InOrder) (hstart : ∀ agenda ∈ turn.session.levels.agendas, P agenda) :
    (∀ t ∈ rounds, ∀ agenda ∈ t.session.levels.agendas, P agenda) ∧
      ∀ agenda ∈ final.session.levels.agendas, P agenda := by
  obtain ⟨hall, last, -, ⟨hlast, hordered⟩, hended⟩ := hrun.invariant
    (P := fun t => (∀ agenda ∈ t.session.levels.agendas, P agenda) ∧ t.session.InOrder)
    (fun t next ht honward =>
      ⟨(round_shift ht.2 (.inl honward)).preserves hkept ht.1, round_inOrder ht.2 honward⟩)
    ⟨hstart, horder⟩
  exact ⟨fun t ht => (hall t ht).1, (round_shift hordered (.inr hended)).preserves hkept hlast⟩

end Turn

/-! ## Conversations -/

/-- A session that is only touched keeps its agendas. -/
theorem Session.Touched.agendas {before after : Session} (h : before.Touched after) :
    after.levels.agendas = before.levels.agendas := by
  rcases hlevels : before.levels with ⟨current, suspended⟩
  cases current with
  | nil => rw [h.levels_eq_of_nil hlevels]
  | cons frame callers =>
      obtain ⟨frame', halike, hafter⟩ := h.levels_eq hlevels
      rw [hafter]
      simp only [Levels.agendas_mk, List.map_cons, halike.agenda]

namespace Engine

variable {engine : Engine} {session : Session} {exchange : Exchange} {P : Agenda → Prop}

/-- What is kept by agendas holds throughout a turn that begins in a session in order. -/
theorem opening_agendas (hkept : Agenda.Kept engine.library P) (horder : session.InOrder)
    (hagendas : ∀ agenda ∈ session.levels.agendas, P agenda) (hrole : exchange.entry.role = .user)
    {turn : Turn}
    (hopening : engine.opening exchange.journal session exchange.entry = .running turn) :
    (∀ t ∈ turn.trail engine, ∀ agenda ∈ t.session.levels.agendas, P agenda) ∧
      ∀ agenda ∈ (turn.run engine).1.session.levels.agendas, P agenda := by
  have hopened := opening_inOrder engine horder hrole
  rw [hopening] at hopened
  have hstart := (opening_begun hrole hopening).shift.preserves hkept hagendas
  rw [(Turn.session_run engine turn).1]
  exact (Turn.runs_drive engine turn).agendas hkept hopened hstart

/-- What is kept by agendas holds of every frame of every session that an engine leads. -/
theorem Reachable.agendas (hkept : Agenda.Kept engine.library P) (h : engine.Reachable session) :
    ∀ agenda ∈ session.levels.agendas, P agenda := by
  induction h with
  | start userId id =>
      intro agenda hmem
      cases hmem
  | @next session hsession exchange ih =>
      rcases next_cases engine session exchange with
        htouched | ⟨turn, hrole, hopening, hnext, -⟩
      · rwa [htouched.agendas]
      · rw [hnext]
        exact (opening_agendas hkept hsession.inOrder ih hrole hopening).2

/-- It also holds of every frame at the beginning of every round. -/
theorem Reachable.agendas_trail (hkept : Agenda.Kept engine.library P)
    (h : engine.Reachable session) {turn : Turn} (hturn : turn ∈ engine.trail session exchange) :
    ∀ agenda ∈ turn.session.levels.agendas, P agenda := by
  obtain ⟨opened, hrole, hopening, htrail⟩ := running_of_trail hturn
  rw [htrail] at hturn
  exact (opening_agendas hkept h.inOrder (h.agendas hkept) hrole hopening).1 turn hturn

/-- What is kept for all steps of agendas holds of every step that is dispatched. -/
theorem Reachable.dispatched {P : Step → Prop}
    (hkept : Agenda.Kept engine.library fun agenda => ∀ step ∈ agenda.steps, P step)
    (h : engine.Reachable session) {turn : Turn} (hturn : turn ∈ engine.trail session exchange)
    {frame : Frame} {step : Step} (htask : turn.task engine = .dispatch frame step) : P step := by
  obtain ⟨htop, -, later, hsteps⟩ := Turn.task_eq_dispatch.1 htask
  have hframe : frame ∈ turn.session.levels.frames :=
    Levels.mem_frames.2 (.inl (List.mem_of_head? htop))
  have hnext : step ∈ frame.agenda.steps := by
    show step ∈ frame.steps
    rw [hsteps]
    exact List.mem_cons_self
  exact h.agendas_trail hkept hturn frame.agenda (Levels.mem_agendas hframe) step hnext

end Engine

/-! ## An engine whose flows branch -/

namespace Kiosk

/-- A step that calls a tool, and if that fails another flow. -/
def seat : Step :=
  .callTool "seat" ⟨"seat", some (.obj []), none, none, 0⟩
    (some (.callFlow "instead" "Weather" .call))

/-- A flow that branches on the answer to its question. -/
def tables : Definition :=
  { flow "Table" "Inside or outside?" "place" with
    steps := [.ask "question" (.plain "Inside or outside?") (some "place"),
      .switch "where" "place" [("inside", seat), ("outside", .callFlow "sky" "Weather" .call)],
      .say "thanks" (.plain "Thanks")] }

/-- A tool that always has a seat. -/
def seats : Tool :=
  ⟨"", "seat", "", .null, ⟨"local", none, []⟩, none⟩

/-- An engine with such a flow, one that it calls and a tool. -/
def desk : Engine :=
  { engine with
    library := stocked [tables, flow "Weather" "Which city?" "city"]
    registry := ⟨[("seat", seats)]⟩
    invoker := fun _ _ _ => .now (.ok (.bool true)) }

/-- The session at the desk of a guest who has said some things. -/
def deskAfter (texts : List String) : Session :=
  desk.after (desk.startSession "guest" "desk") (texts.map guest)

theorem reachable_deskAfter (texts : List String) : desk.Reachable (deskAfter texts) :=
  (Engine.Reachable.start "guest" "desk").after _

end Kiosk

end Parley
