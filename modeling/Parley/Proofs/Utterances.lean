import Parley.Proofs.Confirmations
import Parley.Proofs.Interruptions
import Parley.Proofs.Isolation

/-!
# What a turn says

What a round says is told by its task: a step shows its message or its question, a level that goes
on is announced, and whatever cannot be finished is owned up to.  A turn says what its rounds say,
one after another and after a word about a command; only if all of them are silent it says that all
is done.  The response is exactly this, and nothing is left for the next turn.
-/

set_option autoImplicit false

namespace Parley

namespace Stage

/-- What a step says in a scene, unless it fails. -/
def utterances (stage : Stage) (step : Step) (scene : Scene) : List String :=
  match step with
  | .say _ message => [stage.wordingIn scene message]
  | .ask _ message _ =>
    if scene.frame.pendingVariable.isSome && scene.input.isSome then []
    else [stage.question scene.frame.justResumed (stage.wordingIn scene message)]
  | .callTool _ call _ =>
    match (Turn.perform stage step scene).next with
    | .ok .leave =>
      [stage.engine.notice .toolFailed [("tool", call.tool), ("flow", scene.frame.flowName)]]
    | _ => []
  | .callFlow _ flow _ =>
    match stage.engine.library.get? flow with
    | none => [stage.engine.notice .flowNotFound [("flow", flow)]]
    | some _ => []
  | .set _ _ _ | .switch _ _ _ | .choose _ _ => []

end Stage

namespace Engine

/-- What is said about a step that cannot be finished. -/
def apology (engine : Engine) : Except EngineError Next → List String
  | .ok _ => []
  | .error error => [engine.notice (Turn.noticeOf error) []]

end Engine

namespace Turn

/-- What the round that begins with this turn says. -/
def speech (engine : Engine) (turn : Turn) : List String :=
  match turn.task engine with
  | .rest | .complete _ => []
  | .resume =>
    (turn.session.levels.suspended.head?.bind List.head?).toList.map fun frame =>
      engine.notice .resuming [("flow", frame.flowName)]
  | .stop => [engine.notice .genericError []]
  | .dispatch frame step =>
    let stage := turn.stage engine
    let scene := turn.scene frame ((turn.session.scopes.get? frame.scope).getD [])
    stage.utterances step scene ++ engine.apology (perform stage step scene).next

end Turn

/-! ## Steps -/

namespace Stage

variable {stage : Stage} {scene : Scene}

theorem ask_said (hactive : scene.frame.transaction.state = .active) (id : String)
    (message : Wording) (target : Option String) :
    (stage.ask id message target scene).scene.said =
      scene.said ++ stage.utterances (.ask id message target) scene := by
  unfold ask utterances
  split
  · rename_i waiting input hwaiting hsaid
    rw [answer, Scene.finished_of_active (by simpa using hactive)]
    simp [hwaiting, hsaid, Scene.outcome, Scene.logging, Scene.popStep, Scene.withFrame,
      Scene.store]
  · rename_i hnone
    have hready : (scene.frame.pendingVariable.isSome && scene.input.isSome) = false := by
      cases hwaiting : scene.frame.pendingVariable with
      | none => rfl
      | some waiting =>
          cases hsaid : scene.input with
          | none => rfl
          | some input => exact absurd hsaid (hnone waiting input hwaiting)
    rw [hready]
    cases target with
    | some target => rfl
    | none =>
        simp only [prompt]
        rw [Scene.finished_of_active (by simpa [Frame.record] using hactive)]
        rfl

theorem takeBranch_said (hactive : scene.frame.transaction.state = .active) (kind : StepKind)
    (id : String) (branch : Option Step) (missing : String) :
    (takeBranch kind id branch missing scene).scene.said = scene.said := by
  cases branch with
  | none => rfl
  | some step =>
      rw [takeBranch, Scene.finished_of_active hactive]
      rfl

/-- The outcome of a call says that the tool has failed if the flow is given up, else nothing. -/
def OwnsUp (stage : Stage) (call : ToolCall) (scene : Scene) (outcome : Outcome) : Prop :=
  outcome.scene.said = scene.said ++
    match outcome.next with
    | .ok .leave =>
      [stage.engine.notice .toolFailed [("tool", call.tool), ("flow", scene.frame.flowName)]]
    | _ => []

section Call

variable {id : String} {call : ToolCall} {onFail : Option Step}

theorem callSucceeded_ownsUp (hactive : scene.frame.transaction.state = .active) (tool : Tool)
    (result : Json) (journal : Journal) :
    stage.OwnsUp call scene
      (callSucceeded id call tool result { scene with journal := journal }) := by
  rw [callSucceeded, Scene.logged_of_active (by simpa [Frame.record, Frame.popStep] using hactive)]
  simp [OwnsUp, Scene.outcome]

theorem callFailed_ownsUp (hactive : scene.frame.transaction.state = .active)
    (failure : ToolFailure) (journal : Journal) :
    stage.OwnsUp call scene
      (stage.callFailed id call onFail failure { scene with journal := journal }) := by
  simp only [callFailed]
  split
  · rw [callAgain, Scene.logged_of_active (by simpa using hactive)]
    simp [OwnsUp, Scene.outcome]
  · rw [callGivenUp, Scene.logged_of_active (by simpa using hactive)]
    cases onFail with
    | some handler => simp [OwnsUp, Scene.outcome]
    | none => simp [OwnsUp, Scene.outcome, Frame.record, Frame.popStep, Frame.log]

theorem callTool_said (hactive : scene.frame.transaction.state = .active) :
    (stage.callTool id call onFail scene).scene.said =
      scene.said ++ stage.utterances (.callTool id call onFail) scene := by
  show stage.OwnsUp call scene (stage.callTool id call onFail scene)
  unfold callTool
  split
  · exact callFailed_ownsUp hactive _ scene.journal
  · split
    · exact callSucceeded_ownsUp hactive _ _ _
    · exact callFailed_ownsUp hactive _ _

end Call

theorem callFlow_said (hactive : scene.frame.transaction.state = .active) (id key : String)
    (callType : CallType) :
    (stage.callFlow id key callType scene).scene.said =
      scene.said ++ stage.utterances (.callFlow id key callType) scene := by
  unfold callFlow
  cases hflow : stage.engine.library.get? key with
  | none =>
      have hspeech : stage.utterances (.callFlow id key callType) scene =
          [stage.engine.notice .flowNotFound [("flow", key)]] := by simp [utterances, hflow]
      rw [hspeech]
      cases callType with
      | reboot => rfl
      | call | replace =>
          simp only [unknownFlow]
          rw [Scene.finished_of_active hactive]
          rfl
  | some flow =>
      have hspeech : stage.utterances (.callFlow id key callType) scene = [] := by
        simp [utterances, hflow]
      rw [hspeech, List.append_nil]
      cases callType with
      | reboot => rfl
      | call =>
          simp only [call]
          split
          · rfl
          · rw [Scene.finished_of_active hactive]
            rfl
      | replace =>
          have hlogged : ∀ record,
              (scene.popStep.logging record).frame.transaction.state = .active := fun _ => hactive
          simp only [replace]
          rw [Scene.finished_of_active hactive]
          simp only [Transaction.ifOpen, Transaction.isActive_iff.2 (hlogged _), if_true,
            Transaction.fail, Transaction.finish_of_active (hlogged _)]
          rfl

end Stage

/-- A step of a frame whose transaction is active says what it should. -/
theorem perform_said {stage : Stage} {scene : Scene} (step : Step)
    (hactive : scene.frame.transaction.state = .active) :
    (Turn.perform stage step scene).scene.said = scene.said ++ stage.utterances step scene := by
  cases step with
  | say id message =>
      simp only [Turn.perform, Stage.say]
      rw [Scene.finished_of_active (by simpa [Frame.record] using hactive)]
      rfl
  | ask id message target => exact Stage.ask_said hactive id message target
  | set id target value =>
      simp only [Turn.perform, Stage.set]
      rw [Scene.finished_of_active (by simpa using hactive)]
      exact (List.append_nil _).symm
  | switch id subject branches =>
      exact (Stage.takeBranch_said hactive _ _ _ _).trans (List.append_nil _).symm
  | choose id branches =>
      exact (Stage.takeBranch_said hactive _ _ _ _).trans (List.append_nil _).symm
  | callTool id call onFail => exact Stage.callTool_said hactive
  | callFlow id key callType => exact Stage.callFlow_said hactive id key callType

/-! ## Rounds -/

namespace Turn

variable {engine : Engine} {turn : Turn}

/-- The messages of a scene come after those that the turn had before. -/
theorem outbox_settle (turn : Turn) (outcome : Outcome) :
    (turn.settle outcome).1.session.outbox = turn.session.outbox ++ outcome.scene.said := by
  obtain ⟨scene, next⟩ := outcome
  match next with
  | .error e => rfl
  | .ok .proceed | .ok .await | .ok .leave | .ok (.enter frame) => rfl
  | .ok (.restart none) | .ok (.restart (some flow)) => rfl

theorem outbox_abort (engine : Engine) (turn : Turn) (error : EngineError) :
    (turn.abort engine error).session.outbox =
      turn.session.outbox ++ [engine.notice (noticeOf error) []] := rfl

theorem top_of_complete {frame : Frame} (h : turn.task engine = .complete frame) :
    turn.session.levels.top? = some frame := by
  unfold task at h
  split at h
  · split at h <;> cases h
  · rename_i top htop
    split at h
    · cases h
    · split at h
      · cases h
        exact htop
      · cases h

/-- A step in a session in order says the speech of its round, apart from the apology for an
error. -/
theorem step_said (engine : Engine) (horder : turn.session.InOrder) :
    ((turn.step engine).1.session.outbox ++
        match (turn.step engine).2 with
        | .ok _ => []
        | .error error => [engine.notice (noticeOf error) []]) =
      turn.session.outbox ++ turn.speech engine := by
  rw [step_eq_carried]
  unfold speech
  cases htask : turn.task engine with
  | rest => rfl
  | stop => rfl
  | complete frame =>
      have hactive := horder.active_of_top (top_of_complete htask)
      simp only [carried, finishFrame, Transaction.ifOpen, Transaction.isActive_iff.2 hactive,
        if_true, Transaction.complete, Transaction.finish_of_active hactive]
      rfl
  | resume =>
      have hstep := step_eq_carried engine turn
      rw [htask] at hstep
      rw [← hstep]
      have hmove := step_move engine horder
      generalize turn.step engine = result at hmove
      cases hmove with
      | idled hlevels => simp [task, hlevels, Levels.empty, Levels.top?] at htask
      | resumed frame callers below hlevels =>
          simp [resumedAt, tell, withSession, Session.tell, withLevels, hlevels]
      | exhausted frame callers suspended hlevels hlimit =>
          simp [task, hlevels, Levels.top?, hlimit] at htask
      | finished frame callers suspended hlevels hlimit hsteps =>
          simp [task, hlevels, Levels.top?, Nat.not_lt.2 hlimit, hsteps] at htask
      | performed frame callers suspended step rest vars outcome hlevels hlimit hsteps hvars
          heffect => simp [task, hlevels, Levels.top?, Nat.not_lt.2 hlimit, hsteps] at htask
  | dispatch frame step =>
      obtain ⟨htop, -, -⟩ := task_eq_dispatch.1 htask
      obtain ⟨vars, hvars⟩ := horder.exists_vars htop
      have hcharged : turn.charged.session.scopes.get? frame.scope = some vars := hvars
      have hactive : (turn.scene frame vars).frame.transaction.state = .active :=
        horder.active_of_top htop
      have hsaid : (perform (turn.stage engine) step (turn.scene frame vars)).scene.said =
          (turn.stage engine).utterances step (turn.scene frame vars) := perform_said step hactive
      have hrun : runStep engine turn.charged frame step =
          turn.charged.settle (perform (turn.stage engine) step (turn.scene frame vars)) := by
        simp only [runStep, hcharged]
        rfl
      have hvars' : (turn.session.scopes.get? frame.scope).getD [] = vars := by rw [hvars]; rfl
      simp only [carried, hrun, hvars', outbox_settle]
      rw [hsaid]
      generalize perform (turn.stage engine) step (turn.scene frame vars) = outcome
      obtain ⟨after, next⟩ := outcome
      cases next with
      | ok next => simp [settle, Turn.scene, charged, Engine.apology]
      | error error => simp [settle, Turn.scene, charged, Engine.apology]

/-- A round after which the turn goes on says its speech. -/
theorem round_said {next : Turn} (horder : turn.session.InOrder)
    (h : turn.round engine = .onward next) :
    next.session.outbox = turn.session.outbox ++ turn.speech engine := by
  have hsaid := step_said engine horder
  rcases round_onward h with hrunning | ⟨failed, error, hfailed, -, rfl⟩
  · rw [hrunning] at hsaid
    simpa using hsaid
  · rw [hfailed] at hsaid
    rw [outbox_abort]
    exact hsaid

/-- A step that waits for an answer asks for it. -/
theorem speech_of_blocked (horder : turn.session.InOrder)
    (h : (turn.step engine).2 = .ok .blocked) : turn.speech engine ≠ [] := by
  have hsaid := step_said engine horder
  have hmove := step_move engine horder
  rw [h] at hsaid
  generalize turn.step engine = result at hsaid h hmove
  cases hmove with
  | idled hlevels => cases h
  | resumed frame callers below hlevels => cases h
  | exhausted frame callers suspended hlevels hlimit => cases h
  | finished frame callers suspended hlevels hlimit hsteps => cases h
  | performed frame callers suspended step rest vars outcome hlevels hlimit hsteps hvars heffect =>
      rw [outbox_settle, List.append_nil] at hsaid
      have hspeech := List.append_cancel_left hsaid
      rw [← hspeech]
      cases heffect with
      | asked after id message target hstep hready hframe hafter hpending hshown hasked =>
          rw [hasked]
          exact List.concat_ne_nil _ _
      | remarked after id message hstep hready hframe hafter hpending hasked =>
          rw [hasked]
          exact List.concat_ne_nil _ _
      | rebooted after id key flow hreboot hflow hafter hinput => cases flow <;> cases h
      | _ => cases h

end Turn

/-- What is said in all: that all is done, if there is nothing else to say. -/
def Engine.closing (engine : Engine) (spoken : List String) : List String :=
  if spoken.isEmpty then [engine.notice .flowCompleted []] else spoken

theorem Engine.closing_of_ne_nil (engine : Engine) {spoken : List String} (h : spoken ≠ []) :
    engine.closing spoken = spoken := by
  simp [closing, h]

theorem Engine.closing_ne_nil (engine : Engine) (spoken : List String) :
    engine.closing spoken ≠ [] := by
  unfold closing
  split
  · simp
  · rename_i h
    simpa using h

namespace Turn

variable {engine : Engine} {turn : Turn}

/-- The round that ends a turn says its speech too, or it finds no frames and has nothing to say but
that all is done. -/
theorem ended_said {final : Turn} (horder : turn.session.InOrder)
    (h : turn.round engine = .ended final) :
    final.session.outbox = engine.closing (turn.session.outbox ++ turn.speech engine) ∧
      (turn.session.outbox ++ turn.speech engine = [] → final.session.levels = .empty) := by
  have hsaid := step_said engine horder
  have hloud : turn.speech engine ≠ [] → turn.session.outbox ++ turn.speech engine ≠ [] :=
    fun hspeech hnone => hspeech (List.append_eq_nil_iff.1 hnone).2
  rcases round_ended h with hblocked | ⟨idle, hdone, rfl⟩ | ⟨failed, error, hfailed, -, rfl⟩
  · have hspeech := hloud (speech_of_blocked horder (by rw [hblocked]))
    rw [hblocked] at hsaid
    rw [engine.closing_of_ne_nil hspeech, ← hsaid]
    exact ⟨(List.append_nil _).symm, fun hnone => absurd (hsaid.symm.trans hnone) (hsaid ▸ hspeech)⟩
  · rw [hdone] at hsaid
    have hspoken : idle.session.outbox = turn.session.outbox ++ turn.speech engine := by
      simpa using hsaid
    have hlevels := levels_of_done horder hdone
    refine ⟨?_, fun _ => by rw [(levels_concluded engine idle).1, hlevels]⟩
    rw [← hspoken]
    unfold concluded Engine.closing
    split
    · rename_i hempty
      simp [tell, withSession, Session.tell, List.isEmpty_iff.1 hempty]
    · rfl
  · rw [hfailed] at hsaid
    rw [outbox_abort]
    have hspoken : turn.session.outbox ++ turn.speech engine ≠ [] := by
      rw [← hsaid]
      exact List.concat_ne_nil _ _
    exact ⟨by rw [engine.closing_of_ne_nil hspoken]; exact hsaid, fun hnone => absurd hnone hspoken⟩

/-- What a turn says in all is what it has said at its beginning, then what its rounds say. -/
theorem Runs.said {rounds : List Turn} {final : Turn} (hrun : Runs engine turn rounds final)
    (horder : turn.session.InOrder) :
    final.session.outbox =
        engine.closing (turn.session.outbox ++ rounds.flatMap fun round => round.speech engine) ∧
      (turn.session.outbox ++ rounds.flatMap (fun round => round.speech engine) = [] →
        final.session.levels = .empty) := by
  induction hrun with
  | last hended =>
      have hlast := ended_said horder hended
      simpa using hlast
  | more honward hrest ih =>
      have hlater := ih (round_inOrder horder honward)
      rw [round_said horder honward] at hlater
      simpa using hlater

end Turn

/-! ## Exchanges -/

namespace Turn

variable {engine : Engine} {turn : Turn}

theorem outbox_hear (session : Session) (entry : Entry) :
    (session.hear entry).outbox = session.outbox := by
  simp only [Session.hear, Session.note]
  split
  · rfl
  · rfl

theorem outbox_consider (engine : Engine) (turn : Turn) (input current : String) :
    (turn.consider engine input current).1.session.outbox = turn.session.outbox := rfl

/-- Nothing is said to find the reaction to an input. -/
theorem outbox_react (engine : Engine) (turn : Turn) (frame : Frame) (input : String) :
    (turn.react engine frame input).1.session.outbox = turn.session.outbox := by
  unfold react
  split
  · rfl
  · rfl
  · rfl
  · simp only
    split
    · rfl
    · exact outbox_consider engine _ input _
  · rfl
  · exact outbox_consider engine _ input _
  · exact outbox_consider engine _ input _

theorem outbox_cancel {after : Turn} (h : turn.cancel engine = .running after) :
    after.session.outbox = turn.session.outbox ++
      (turn.session.levels.current.getLast?.map Frame.flowName).toList.map fun name =>
        engine.notice .cancelled [("flow", name)] := by
  unfold cancel at h
  split at h
  · cases h
  · rename_i frame hfirst
    cases h
    rw [hfirst]
    rfl

end Turn

/-- The flow that a level was started for keeps its name while the frame that runs is touched. -/
theorem Frame.Alike.first {before after : Frame} (h : before.Alike after) (callers : Level) :
    (after :: callers).getLast?.map Frame.flowName =
      (before :: callers).getLast?.map Frame.flowName := by
  cases callers with
  | nil => simp [h.flowName]
  | cons caller others => simp [List.getLast?_cons_cons]

namespace Engine

variable {engine : Engine} {session : Session} {exchange : Exchange}

/-- What is said about a command before anything runs. -/
def prelude (engine : Engine) (session : Session) (exchange : Exchange) : List String :=
  match engine.reaction? session exchange with
  | some .cancel => (session.levels.current.getLast?.map Frame.flowName).toList.map fun name =>
      engine.notice .cancelled [("flow", name)]
  | some .stay => (session.levels.top?.map Frame.flowName).toList.map fun name =>
      engine.notice .continuing [("flow", name)]
  | _ => []

/-- What an exchange says while it makes something run: a word about a command, then what its rounds
say, or that all is done if that is nothing. -/
def spoken (engine : Engine) (session : Session) (exchange : Exchange) : List String :=
  engine.prelude session exchange ++
    (engine.trail session exchange).flatMap fun round => round.speech engine

/-- With a frame that runs, the turn begins as the reaction demands, and nothing has been said
yet. -/
theorem opening_reacting (engine : Engine) {frame : Frame} {callers : Level}
    {suspended : List Level} (hrole : exchange.entry.role = .user)
    (hlevels : session.levels = ⟨frame :: callers, suspended⟩) :
    ∃ (turn : Turn) (frame' : Frame) (reaction : Reaction),
      engine.reaction? session exchange = some reaction ∧
      engine.opening exchange.journal session exchange.entry =
        turn.carryOut engine (frame.record exchange.entry) reaction ∧
      turn.session.outbox = session.outbox ∧ frame.Alike frame' ∧
      turn.session.levels = ⟨frame' :: callers, suspended⟩ := by
  have hheard := Session.levels_hear hlevels exchange.entry
  have htop : (session.hear exchange.entry).levels.top? = some (frame.record exchange.entry) := by
    rw [hheard]
    rfl
  obtain ⟨htouched, -⟩ := Turn.react_touched engine (heard session exchange)
    (frame.record exchange.entry) exchange.entry.content
  obtain ⟨frame', halike, hopened⟩ := htouched.levels_eq hheard
  have hsaid := Turn.outbox_react engine (heard session exchange) (frame.record exchange.entry)
    exchange.entry.content
  refine ⟨_, frame', ((heard session exchange).react engine (frame.record exchange.entry)
    exchange.entry.content).2, ?_, ?_, hsaid.trans (Turn.outbox_hear session exchange.entry),
    (Frame.Alike.record frame exchange.entry).trans halike, hopened⟩
  · simp [reaction?, hrole, htop]
  · simp only [opening, htop]
    exact Turn.handleInput_eq engine _ _ _

/-- An input that makes something run begins with the messages that were left over and the word
about a command. -/
theorem opening_said {turn : Turn} (hrole : exchange.entry.role = .user)
    (h : engine.opening exchange.journal session exchange.entry = .running turn) :
    turn.session.outbox = session.outbox ++ engine.prelude session exchange := by
  rcases hlevels : session.levels with ⟨current, suspended⟩
  cases current with
  | nil =>
      obtain ⟨hopening, hheard⟩ := opening_of_nil engine exchange hlevels
      have hidle : (session.hear exchange.entry).levels = ⟨[], suspended⟩ := hheard
      have hnone : engine.reaction? session exchange = none := by
        simp [reaction?, hidle, Levels.top?]
      rw [hopening] at h
      simp only [prelude, hnone, List.append_nil]
      unfold Turn.welcome at h
      simp only at h
      split at h
      · cases h
      · cases h
      · cases h
        exact Turn.outbox_hear session exchange.entry
  | cons frame callers =>
      obtain ⟨opened, frame', reaction, hreaction, hopening, hkept, halike, hopened⟩ :=
        opening_reacting engine hrole hlevels
      rw [hopening] at h
      simp only [prelude, hreaction]
      rw [← hkept]
      cases reaction with
      | cancel => rw [Turn.outbox_cancel h, hopened, hlevels, halike.first callers]
      | help | status | confirm flow => cases h
      | stay =>
          cases h
          rw [hlevels]
          rfl
      | interrupt flow | goOn =>
          cases h
          exact (List.append_nil _).symm

/-- An input that is answered at once leaves no message behind, and is answered unless there is
nothing in progress. -/
theorem answered_said {turn : Turn} {response : Option String} (hrole : exchange.entry.role = .user)
    (h : engine.opening exchange.journal session exchange.entry = .answered turn response) :
    turn.session.outbox = session.outbox ∧
      (response = none → session.levels.top? = none ∧ turn.session.levels = session.levels) := by
  rcases hlevels : session.levels with ⟨current, suspended⟩
  cases current with
  | nil =>
      obtain ⟨hopening, hheard⟩ := opening_of_nil engine exchange hlevels
      have hsame := Turn.session_of_welcome (hopening.symm.trans h)
      rw [hsame]
      exact ⟨Turn.outbox_hear session exchange.entry, fun _ => ⟨rfl, hheard⟩⟩
  | cons frame callers =>
      obtain ⟨opened, frame', reaction, -, hopening, hkept, -, hopened⟩ :=
        opening_reacting engine hrole hlevels
      rw [hopening] at h
      rw [← hkept]
      cases reaction with
      | cancel =>
          obtain ⟨running, hrunning, -⟩ := Turn.cancel_running hopened engine
          cases hrunning.symm.trans h
      | help | status | confirm flow =>
          cases h
          exact ⟨rfl, fun hnone => by cases hnone⟩
      | stay | interrupt flow | goOn => cases h

end Engine

namespace Turn

/-- At its end a turn has no messages left, and its response is all that it has said. -/
theorem run_said (engine : Engine) (turn : Turn) :
    (turn.run engine).1.session.outbox = [] ∧
      ((turn.drive engine).session.outbox ≠ [] → (turn.run engine).2 =
        some (Session.joinMessages (turn.drive engine).session.outbox)) := by
  have hkept : (turn.drive engine).session.collectScopes.outbox =
      (turn.drive engine).session.outbox := rfl
  simp only [run, Session.flush, hkept]
  split
  · rename_i hempty
    have hnone := List.isEmpty_iff.1 hempty
    exact ⟨hnone, fun hsome => absurd hnone hsome⟩
  · exact ⟨rfl, fun _ => rfl⟩

end Turn

namespace Engine

variable {engine : Engine} {session : Session} {exchange : Exchange}

/-- Between exchanges no message is left over. -/
theorem Reachable.outbox (h : engine.Reachable session) : session.outbox = [] := by
  induction h with
  | start userId id => rfl
  | @next session hsession exchange ih =>
      have hcourse := engine.course session exchange
      generalize engine.next session exchange = after at hcourse ⊢
      generalize engine.response? session exchange = response at hcourse
      generalize engine.trail session exchange = rounds at hcourse
      cases hcourse with
      | refused => exact ih
      | noted hrole =>
          simp only [Session.note]
          split
          · exact ih
          · exact ih
      | answered turn response hrole hopening => exact (answered_said hrole hopening).1.trans ih
      | ran turn hrole hopening => exact (Turn.run_said engine turn).1

end Engine

namespace Kiosk

end Kiosk

end Parley
