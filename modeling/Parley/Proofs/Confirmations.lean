import Parley.Proofs.Histories
import Parley.Proofs.Isolation
import Parley.Proofs.Notices

/-!
# Flows of high risk

Only the frame that runs can have a flow that waits for confirmation, and nothing
runs while one waits: every input but the wish for help or for a report settles the
matter before anything else is done.  So what waits was asked about in the last
exchange that was no such wish, and a flow of high risk is interrupted only by the
flow that the user was asked about, and only at the user's word.
-/

set_option autoImplicit false

namespace Parley

namespace Levels

/-- No frame has a flow that waits for confirmation. -/
def Decided (levels : Levels) : Prop :=
  ∀ frame ∈ levels.frames, frame.pendingInterruption = none

variable {frame : Frame} {callers : Level} {suspended : List Level}

theorem decided_cons : (Levels.mk (frame :: callers) suspended).Decided ↔
    frame.pendingInterruption = none ∧ (Levels.mk callers suspended).Decided := by
  simp [Decided, frames, inward]

theorem decided_nil_cons {level : Level} : (Levels.mk [] (level :: suspended)).Decided ↔
    (Levels.mk level suspended).Decided := by
  simp [Decided, frames, inward]

theorem Decided.pop {levels : Levels} (h : levels.Decided) : levels.pop.1.Decided := by
  obtain ⟨current, suspended⟩ := levels
  cases current with
  | nil => exact h
  | cons frame callers => exact (decided_cons.1 h).2

theorem Decided.drain {levels : Levels} (h : levels.pop.1.Decided) : levels.drain.1.Decided := by
  intro frame hframe
  refine h frame (mem_frames.2 (.inr ?_))
  rcases mem_frames.1 hframe with hnone | hsuspended
  · cases hnone
  · exact hsuspended

end Levels

/-! ## While a turn runs -/

/-- No step makes its frame wait for a confirmation. -/
theorem Effect.decided {stage : Stage} {step : Step} {scene : Scene} {outcome : Outcome}
    (h : Effect stage step scene outcome) (hscene : scene.frame.pendingInterruption = none) :
    outcome.scene.frame.pendingInterruption = none := by
  cases h with
  | proceeded after pushed hkind hcontinues => exact hcontinues.interruption.trans hscene
  | answered after target input hkind hwaiting hsaid hcontinues =>
      exact hcontinues.interruption.trans hscene
  | asked after id message target hstep hready hcontinues =>
      exact hcontinues.interruption.trans hscene
  | remarked after id message hstep hready hcontinues => exact hcontinues.interruption.trans hscene
  | gaveUp after hkind hcontinues => exact hcontinues.interruption.trans hscene
  | entered after flow initiator hkind hroom hcontinues =>
      exact hcontinues.interruption.trans hscene
  | replaced after flow initiator closed hkind hafter =>
      rw [hafter]
      rfl
  | rebooted after id key flow hstep hflow hafter =>
      rw [hafter]
      exact hscene
  | failed error hkind herror => exact hscene

namespace Turn

variable {engine : Engine} {turn : Turn}

theorem settle_decided (turn : Turn) {frame : Frame} {callers : Level} {suspended : List Level}
    {stage : Stage} {step : Step} {vars : Fields} {outcome : Outcome}
    (hlevels : turn.session.levels = ⟨frame :: callers, suspended⟩)
    (hdecided : turn.session.levels.Decided)
    (heffect : Effect stage step (turn.scene frame vars) outcome) :
    (turn.settle outcome).1.session.levels.Decided := by
  rw [hlevels] at hdecided
  obtain ⟨hframe, hothers⟩ := Levels.decided_cons.1 hdecided
  by_cases hrestart : ∃ flow, outcome.next = .ok (.restart flow)
  · obtain ⟨flow, hnext⟩ := hrestart
    obtain ⟨scene, next⟩ := outcome
    subst hnext
    intro f hf
    cases flow with
    | none => cases hf
    | some flow =>
        obtain rfl := List.mem_singleton.1 hf
        rfl
  · rw [levels_settle hlevels outcome fun flow hflow => hrestart ⟨flow, hflow⟩]
    intro f hf
    rcases Levels.mem_frames.1 hf with hlevel | hsuspended
    · rcases mem_levelAfter hlevel with hcaller | rfl | henter
      · exact hothers f (Levels.mem_frames.2 (.inl hcaller))
      · exact heffect.decided hframe
      · obtain ⟨flow, transaction, rfl, -⟩ := heffect.enter henter
        rfl
    · exact hothers f (Levels.mem_frames.2 (.inr hsuspended))

theorem step_decided (engine : Engine) (horder : turn.session.InOrder)
    (hdecided : turn.session.levels.Decided) :
    (turn.step engine).1.session.levels.Decided := by
  have hmove := step_move engine horder
  generalize turn.step engine = result at hmove
  cases hmove with
  | idled hlevels => exact hdecided
  | resumed frame callers below hlevels =>
      rw [hlevels] at hdecided
      obtain ⟨hframe, hothers⟩ := Levels.decided_cons.1 (Levels.decided_nil_cons.1 hdecided)
      exact Levels.decided_cons.2 ⟨hframe, hothers⟩
  | exhausted frame callers suspended hlevels hlimit => exact hdecided
  | finished frame callers suspended hlevels hlimit hsteps =>
      rw [hlevels] at hdecided
      exact (Levels.decided_cons.1 hdecided).2
  | performed frame callers suspended step rest vars outcome hlevels hlimit hsteps hvars heffect =>
      exact settle_decided turn.charged hlevels hdecided heffect

theorem round_decided {next : Turn} (horder : turn.session.InOrder)
    (hdecided : turn.session.levels.Decided) (h : turn.round engine = .onward next) :
    next.session.levels.Decided := by
  have hafter := step_decided engine horder hdecided
  rcases round_onward h with hrunning | ⟨failed, error, hfailed, -, rfl⟩
  · rwa [hrunning] at hafter
  · rw [hfailed] at hafter
    exact Levels.Decided.drain hafter.pop

theorem ended_decided {final : Turn} (horder : turn.session.InOrder)
    (hdecided : turn.session.levels.Decided) (h : turn.round engine = .ended final) :
    final.session.levels.Decided := by
  have hafter := step_decided engine horder hdecided
  rcases round_ended h with hblocked | ⟨idle, hdone, rfl⟩ | ⟨failed, error, hfailed, -, rfl⟩
  · rwa [hblocked] at hafter
  · rw [hdone] at hafter
    rwa [(levels_concluded engine idle).1]
  · rw [hfailed] at hafter
    exact Levels.Decided.drain hafter.pop

/-- A beat during which no frame waits for a confirmation and no level is opened. -/
structure Settling (beat : Beat) : Prop where
  before : beat.before.Decided
  after : beat.after.Decided
  below : beat.after.suspended <:+ beat.before.suspended

/-- If no frame waits when a run begins, none waits in any of its rounds, and no round opens a
level. -/
theorem Runs.settling {trail : List Turn} {final : Turn} (hrun : Runs engine turn trail final)
    (horder : turn.session.InOrder) (hdecided : turn.session.levels.Decided) :
    (∀ beat ∈ Turn.beats engine final trail, Settling beat) ∧ final.session.levels.Decided := by
  induction hrun with
  | last hended =>
      have hfinal := ended_decided horder hdecided hended
      refine ⟨?_, hfinal⟩
      intro beat hbeat
      obtain rfl := List.mem_singleton.1 hbeat
      exact ⟨hdecided, hfinal, ended_suspended horder hended⟩
  | more honward hrest ih =>
      have hnext := round_decided horder hdecided honward
      obtain ⟨hlater, hfinal⟩ := ih (round_inOrder horder honward) hnext
      refine ⟨?_, hfinal⟩
      have hbelow := round_suspended horder honward
      intro beat hbeat
      cases hrest with
      | last hended =>
          rcases List.mem_cons.1 hbeat with rfl | hin
          · exact ⟨hdecided, hnext, hbelow⟩
          · exact hlater beat hin
      | more hsecond hmore =>
          rcases List.mem_cons.1 hbeat with rfl | hin
          · exact ⟨hdecided, hnext, hbelow⟩
          · exact hlater beat hin

/-! ## How turns begin -/

/-- The frame without a flow that waits for confirmation. -/
def declined (frame : Frame) : Frame :=
  { frame with pendingInterruption := none }

/-- The reactions to an input while `frame` runs, each with the turn in which it is carried out. -/
inductive Reacted (engine : Engine) (turn : Turn) (frame : Frame) (callers : Level)
    (suspended : List Level) (input : String) : Turn → Reaction → Prop where
  /-- A command that does not settle what waits. -/
  | obeyed (command : Command) (reaction : Reaction)
      (hcommand : Command.ofInput? input = some command)
      (hreaction : command = .cancel ∧ reaction = .cancel ∨ command = .help ∧ reaction = .help ∨
        command = .status ∧ reaction = .status) :
      Reacted engine turn frame callers suspended input turn reaction
  /-- The user confirms the flow that waits. -/
  | switched (after : Turn) (name : String) (target : Definition)
      (hlevels : after.session.levels = ⟨declined frame :: callers, suspended⟩)
      (hcommand : Command.ofInput? input = some .switch)
      (hwaiting : frame.pendingInterruption = some name)
      (hflow : engine.library.get? name = some target) :
      Reacted engine turn frame callers suspended input after (.interrupt target)
  /-- The flow that runs goes on. -/
  | settled (after : Turn) (reaction : Reaction)
      (hlevels : after.session.levels = ⟨declined frame :: callers, suspended⟩)
      (hreaction : reaction = .stay ∨ reaction = .goOn) :
      Reacted engine turn frame callers suspended input after reaction
  /-- The user wants another flow, and is asked to confirm that. -/
  | asked (after : Turn) (key : String) (target : Definition)
      (hlevels : after.session.levels = ⟨declined frame :: callers, suspended⟩)
      (hflow : engine.library.get? key = some target) :
      Reacted engine turn frame callers suspended input after (.confirm target)
  /-- The user wants another flow, and the one that runs may be left for it. -/
  | wished (after : Turn) (key : String) (target : Definition)
      (hlevels : after.session.levels = ⟨declined frame :: callers, suspended⟩)
      (hflow : engine.library.get? key = some target)
      (hrisk : needsConfirmation engine frame.flowName = false) :
      Reacted engine turn frame callers suspended input after (.interrupt target)

section Reacted

variable {frame : Frame} {callers : Level} {suspended : List Level} {input : String}

theorem consider_reacted {before : Turn}
    (hlevels : before.session.levels = ⟨declined frame :: callers, suspended⟩) :
    Reacted engine turn frame callers suspended input
      (before.consider engine input frame.flowName).1
      (before.consider engine input frame.flowName).2 := by
  unfold consider
  have hfound : ∀ intent,
      (Intent.classify engine before.journal input (some frame.flowName)).2 = some intent →
      ∃ key, engine.library.get? key = some intent.flow :=
    fun intent => Intent.flow_of_classify
  generalize Intent.classify engine before.journal input (some frame.flowName) = classified
    at hfound ⊢
  obtain ⟨journal, intent⟩ := classified
  have hlevels' : ({ before with journal := journal } : Turn).session.levels =
      ⟨declined frame :: callers, suspended⟩ := hlevels
  simp only
  unfold reactionTo
  split
  · rename_i target
    obtain ⟨key, hflow⟩ := hfound _ rfl
    split
    · exact .settled _ _ hlevels' (.inr rfl)
    · split
      · exact .asked _ key target hlevels' hflow
      · rename_i hrisk
        exact .wished _ key target hlevels' hflow (by simpa using hrisk)
  · exact .settled _ _ hlevels' (.inr rfl)

/-- Whatever the user says while a flow is in progress leads to one of these reactions. -/
theorem react_reacted (engine : Engine)
    (hlevels : turn.session.levels = ⟨frame :: callers, suspended⟩) (input : String) :
    Reacted engine turn frame callers suspended input (turn.react engine frame input).1
      (turn.react engine frame input).2 := by
  have hdeclined : turn.declineInterruption.session.levels =
      ⟨declined frame :: callers, suspended⟩ := by
    simp [declineInterruption, modifyTop, hlevels, Levels.modifyTop, declined]
  unfold react
  split
  · rename_i hcommand
    exact .obeyed _ _ hcommand (.inl ⟨rfl, rfl⟩)
  · rename_i hcommand
    exact .obeyed _ _ hcommand (.inr (.inl ⟨rfl, rfl⟩))
  · rename_i hcommand
    exact .obeyed _ _ hcommand (.inr (.inr ⟨rfl, rfl⟩))
  · rename_i name hcommand hwaiting
    simp only
    split
    · rename_i target hflow
      exact .switched _ name target hdeclined hcommand hwaiting hflow
    · exact consider_reacted hdeclined
  · exact .settled _ _ hdeclined (.inl rfl)
  · exact consider_reacted hdeclined
  · have hnone : frame.pendingInterruption = none := by assumption
    have hsame : declined frame = frame := by
      rw [declined, ← hnone]
    rw [← hsame] at hlevels
    exact consider_reacted hlevels

variable {after running : Turn} {reaction : Reaction}

/-- A turn that begins to run has no frame that waits for a confirmation. -/
theorem Reacted.decided (h : Reacted engine turn frame callers suspended input after reaction)
    (hlevels : turn.session.levels = ⟨frame :: callers, suspended⟩)
    (hothers : (Levels.mk callers suspended).Decided) {named : Frame}
    (hrunning : after.carryOut engine named reaction = .running running) :
    running.session.levels.Decided := by
  have hswitch : ∀ target,
      after.session.levels = ⟨declined frame :: callers, suspended⟩ →
      (after.switchTo target).session.levels.Decided := by
    intro target hafter
    rw [levels_switchTo hafter]
    exact Levels.decided_cons.2 ⟨rfl, Levels.decided_nil_cons.2 (Levels.decided_cons.2
      ⟨rfl, hothers⟩)⟩
  cases h with
  | obeyed command reaction hcommand hreaction =>
      rcases hreaction with ⟨-, rfl⟩ | ⟨-, rfl⟩ | ⟨-, rfl⟩
      · obtain ⟨cancelled, hcancelled, hdrained, -⟩ := cancel_running hlevels engine
        simp only [carryOut, hcancelled, Opening.running.injEq] at hrunning
        have hleft : (Levels.mk (frame :: callers) suspended).drain.1.Decided := .drain hothers
        rw [← hrunning, hdrained]
        exact hleft
      · cases hrunning
      · cases hrunning
  | switched after name target hafter hcommand hwaiting hflow =>
      cases hrunning
      exact hswitch target hafter
  | settled after reaction hafter hreaction =>
      have hdecided : after.session.levels.Decided := by
        rw [hafter]
        exact Levels.decided_cons.2 ⟨rfl, hothers⟩
      rcases hreaction with rfl | rfl
      · cases hrunning
        exact hdecided
      · cases hrunning
        exact hdecided
  | asked after key target hafter hflow => cases hrunning
  | wished after key target hafter hflow hrisk =>
      cases hrunning
      exact hswitch target hafter

end Reacted

end Turn

namespace Session

variable {before after : Session} {frame : Frame} {callers : Level} {suspended : List Level}

theorem levels_hear (hlevels : before.levels = ⟨frame :: callers, suspended⟩) (entry : Entry) :
    (before.hear entry).levels = ⟨frame.record entry :: callers, suspended⟩ := by
  simp [hear, note, hlevels, Levels.top?, Levels.modifyTop]

/-- What only touches a session touches no frame but the one that runs. -/
theorem Touched.others (h : before.Touched after) : after.levels.pop.1 = before.levels.pop.1 := by
  obtain ⟨change, -, hafter⟩ := h.levels
  rw [hafter, Levels.modifyTop_eq]
  cases hcurrent : before.levels.current <;> simp [Levels.pop, hcurrent]

end Session

namespace Engine

variable {engine : Engine} {session : Session} {exchange : Exchange}

theorem opening_reacted (engine : Engine) {frame : Frame} {callers : Level}
    {suspended : List Level} (hrole : exchange.entry.role = .user)
    (hlevels : session.levels = ⟨frame :: callers, suspended⟩) :
    ∃ turn reaction, Turn.Reacted engine (heard session exchange) (frame.record exchange.entry)
        callers suspended exchange.entry.content turn reaction ∧
      engine.reaction? session exchange = some reaction ∧
      engine.opening exchange.journal session exchange.entry =
        turn.carryOut engine (frame.record exchange.entry) reaction := by
  have hheard := Session.levels_hear hlevels exchange.entry
  have htop : (session.hear exchange.entry).levels.top? = some (frame.record exchange.entry) := by
    rw [hheard]
    rfl
  refine ⟨_, _, Turn.react_reacted engine hheard exchange.entry.content, ?_, ?_⟩
  · simp [reaction?, hrole, htop]
  · simp only [opening, htop]
    exact Turn.handleInput_eq engine _ _ _

theorem opening_decided (hothers : session.levels.pop.1.Decided)
    (hrole : exchange.entry.role = .user) {turn : Turn}
    (h : engine.opening exchange.journal session exchange.entry = .running turn) :
    turn.session.levels.Decided := by
  rcases hlevels : session.levels with ⟨current, suspended⟩
  rw [hlevels] at hothers
  cases current with
  | nil =>
      have hbegun := opening_begun hrole h
      rw [hlevels] at hbegun
      generalize turn.session.levels = after at hbegun ⊢
      cases hbegun with
      | kept frame frame' callers below hbefore halike => cases hbefore
      | cancelled frame callers below hbefore => cases hbefore
      | interrupted frame frame' callers below key flow scope transaction hbefore => cases hbefore
      | welcomed below key flow scope transaction hbefore hflow =>
          cases hbefore
          exact Levels.decided_cons.2 ⟨rfl, hothers⟩
  | cons frame callers =>
      obtain ⟨opened, reaction, hreacted, -, hopening⟩ := opening_reacted engine hrole hlevels
      exact hreacted.decided (Session.levels_hear hlevels exchange.entry) hothers
        (hopening.symm.trans h)

theorem next_others (engine : Engine) (horder : session.InOrder)
    (hothers : session.levels.pop.1.Decided) (exchange : Exchange) :
    (engine.next session exchange).levels.pop.1.Decided := by
  rcases next_cases engine session exchange with htouched | ⟨turn, hrole, hopening, hnext, -⟩
  · rwa [htouched.others]
  · have hordered := opening_inOrder engine horder hrole
    rw [hopening] at hordered
    have hdecided := opening_decided hothers hrole hopening
    rw [hnext, (Turn.session_run engine turn).1]
    exact ((Turn.runs_drive engine turn).settling hordered hdecided).2.pop

/-- Between exchanges only the frame that runs can have a flow that waits for confirmation. -/
theorem Reachable.others (h : engine.Reachable session) : session.levels.pop.1.Decided := by
  induction h with
  | start userId id =>
      intro frame hframe
      cases hframe
  | next hsession exchange ih => exact next_others engine hsession.inOrder ih exchange

/-! ## Where a flow that waits comes from -/

/-- In the exchange the user asks for a flow of the library, is asked in turn whether it may
interrupt the one of the frame, and is told its name if the wording has a place for it. -/
structure Requests (engine : Engine) (session : Session) (request : Exchange) (frame : Frame)
    (target : Definition) : Prop where
  known : ∃ key, engine.library.get? key = some target
  reaction : engine.reaction? session request = some (.confirm target)
  response : engine.response? session request = some (engine.notice .switchConfirm
    [("flow", frame.flowName), ("target", target.name)])
  named : Text.contains (Catalog.placeOf "target")
      (engine.catalog.get engine.settings.language Notice.switchConfirm.key).toList = true →
    ∃ response, engine.response? session request = some response ∧
      mentions target.name response = true
  recorded : ∃ asked, (engine.next session request).levels.top? = some asked ∧
    asked.pendingInterruption = some target.name ∧ asked.Alike frame

/-- The exchanges end with a request for the flow, after which the user said nothing but to ask for
help or for a report. -/
def Asked (engine : Engine) (first : Session) (exchanges : List Exchange) (frame : Frame)
    (target : Definition) : Prop :=
  ∃ before request between, exchanges = before ++ request :: between ∧
    engine.Requests (engine.after first before) request frame target ∧
    ∀ other ∈ between, other.entry.role = .user →
      Command.ofInput? other.entry.content = some .help ∨
        Command.ofInput? other.entry.content = some .status

theorem Requests.alike {before after : Frame} {target : Definition}
    (h : engine.Requests session exchange before target) (halike : before.Alike after) :
    engine.Requests session exchange after target := by
  obtain ⟨asked, hasked, hwaiting, hbefore⟩ := h.recorded
  refine ⟨h.known, h.reaction, ?_, h.named, asked, hasked, hwaiting, hbefore.trans halike⟩
  rw [halike.flowName]
  exact h.response

theorem next_of_answered (horder : session.InOrder) (hrole : exchange.entry.role = .user)
    {turn : Turn} {response : Option String}
    (hopening : engine.opening exchange.journal session exchange.entry = .answered turn response) :
    engine.next session exchange = turn.session ∧
      engine.response? session exchange = response := by
  have hdangling := horder.danglingFrame?
  constructor
  · simp [next, update, hrole, hdangling, respond, hopening, Opening.finish]
  · simp [response?, update, hrole, hdangling, respond, hopening, Opening.finish]

/-- The notice about a flow that needs confirmation tells the name of the flow if it has a place for
it. -/
theorem notice_names (engine : Engine) (flow target : String)
    (hplace : Text.contains (Catalog.placeOf "target")
      (engine.catalog.get engine.settings.language Notice.switchConfirm.key).toList = true) :
    mentions target (engine.notice .switchConfirm [("flow", flow), ("target", target)]) = true := by
  have htarget : Catalog.IsName "target" := by decide +kernel
  have hflow : Catalog.IsName "flow" ∧ "target" ≠ "flow" := by decide +kernel
  have hothers : ∀ other ∈ [("flow", flow)], Catalog.IsName other.1 ∧ "target" ≠ other.1 := by
    intro other hother
    obtain rfl := List.mem_singleton.1 hother
    exact hflow
  have hmentions := engine.catalog.mentions_format engine.settings.language
    Notice.switchConfirm.key target htarget hothers hplace
  exact hmentions

/-- In every language the wording that the engine comes with has a place for that name. -/
theorem place_standard (language : String) :
    Text.contains (Catalog.placeOf "target")
      (Catalog.standard.get language Notice.switchConfirm.key).toList = true := by
  have henglish : Catalog.standard.textIn? Catalog.fallbackLanguage Notice.switchConfirm.key =
      some Notice.switchConfirm.english := by decide +kernel
  have hspanish : Catalog.standard.textIn? "es" Notice.switchConfirm.key =
      some Notice.switchConfirm.spanish := by decide +kernel
  by_cases hen : language = Catalog.fallbackLanguage
  · rw [hen, Catalog.get, henglish]
    decide +kernel
  · by_cases hes : language = "es"
    · rw [hes, Catalog.get, hspanish]
      decide +kernel
    · have hnone : Catalog.standard.textIn? language Notice.switchConfirm.key = none := by
        have hen' : ¬"en" = language := fun h => hen h.symm
        have hes' : ¬"es" = language := fun h => hes h.symm
        simp [Catalog.textIn?, Catalog.standard, Table.get?, hen', hes']
      rw [Catalog.get, hnone, henglish]
      decide +kernel

/-- An input that is answered at once while a flow runs leaves what waits, or makes a request. -/
theorem waiting_of_answered (horder : session.InOrder) (hrole : exchange.entry.role = .user)
    {frame after : Frame} {callers : Level} {suspended : List Level} {name : String}
    (hlevels : session.levels = ⟨frame :: callers, suspended⟩) {turn : Turn}
    {response : Option String}
    (hopening : engine.opening exchange.journal session exchange.entry = .answered turn response)
    (htop : (engine.next session exchange).levels.top? = some after)
    (hwaiting : after.pendingInterruption = some name) :
    (∃ target, target.name = name ∧ engine.Requests session exchange after target) ∨
      frame.Alike after ∧ frame.pendingInterruption = some name ∧
        (Command.ofInput? exchange.entry.content = some .help ∨
          Command.ofInput? exchange.entry.content = some .status) := by
  obtain ⟨hnext, hresponse⟩ := next_of_answered horder hrole hopening
  obtain ⟨opened, reaction, hreacted, hreaction, hcarried⟩ := opening_reacted engine hrole hlevels
  have hheard : (heard session exchange).session.levels =
      ⟨frame.record exchange.entry :: callers, suspended⟩ := Session.levels_hear hlevels _
  have hanswered := hcarried.symm.trans hopening
  cases hreacted with
  | obeyed command reaction hcommand hobeyed =>
      have hkept : turn = heard session exchange →
          frame.Alike after ∧ frame.pendingInterruption = some name := by
        rintro rfl
        have hsame : some (frame.record exchange.entry) = some after := by
          rw [← htop, hnext]
          exact (congrArg Levels.top? hheard).symm
        cases hsame
        exact ⟨Frame.Alike.record frame exchange.entry, hwaiting⟩
      rcases hobeyed with ⟨-, rfl⟩ | ⟨rfl, rfl⟩ | ⟨rfl, rfl⟩
      · obtain ⟨cancelled, hcancelled, -⟩ := Turn.cancel_running hheard engine
        cases hcancelled.symm.trans hanswered
      · cases hanswered
        exact .inr ⟨(hkept rfl).1, (hkept rfl).2, .inl hcommand⟩
      · cases hanswered
        exact .inr ⟨(hkept rfl).1, (hkept rfl).2, .inr hcommand⟩
  | switched after' waited target hafter hcommand hwaited hflow => cases hanswered
  | settled after' reaction hafter hsettled =>
      rcases hsettled with rfl | rfl
      · cases hanswered
      · cases hanswered
  | asked after' key target hafter hflow =>
      cases hanswered
      have hlevel : (engine.next session exchange).levels.top? = some
          { Turn.declined (frame.record exchange.entry) with
            pendingInterruption := some target.name } := by
        rw [hnext]
        simp [Turn.requestConfirmation, Turn.modifyTop, hafter, Levels.modifyTop, Levels.top?]
      rw [hlevel] at htop
      cases htop
      obtain rfl := Option.some.inj hwaiting
      refine .inl ⟨target, rfl, ⟨key, hflow⟩, hreaction, hresponse, ?_, _, hlevel, rfl, .refl _⟩
      exact fun hplace => ⟨_, hresponse, notice_names engine _ _ hplace⟩
  | wished after' key target hafter hflow hrisk => cases hanswered

/-- What the user has not said is refused or only recorded, and settles nothing. -/
theorem waiting_unheard (hrole : exchange.entry.role ≠ .user) {after : Frame} {name : String}
    (htop : (engine.next session exchange).levels.top? = some after)
    (hwaiting : after.pendingInterruption = some name) :
    ∃ before, session.levels.top? = some before ∧ before.Alike after ∧
      before.pendingInterruption = some name := by
  have hcourse := engine.course session exchange
  generalize engine.next session exchange = next at hcourse htop
  generalize engine.response? session exchange = response at hcourse
  generalize engine.trail session exchange = rounds at hcourse
  cases hcourse with
  | refused => exact ⟨after, htop, .refl after, hwaiting⟩
  | noted =>
      rcases hlevels : session.levels with ⟨current, suspended⟩
      have htouched := Session.touched_note session exchange.entry
      cases current with
      | nil =>
          rw [htouched.levels_eq_of_nil hlevels] at htop
          cases htop
      | cons frame callers =>
          have hrecorded : some (frame.record exchange.entry) = some after := by
            rw [← htop]
            simp [Session.note, hlevels, Levels.top?, Levels.modifyTop]
          cases hrecorded
          exact ⟨frame, rfl, .record frame exchange.entry, hwaiting⟩
  | answered turn response hother => exact absurd hother hrole
  | ran turn hother => exact absurd hother hrole

/-- A flow that waits after an exchange has been asked about in it, or has waited before and the
user has said nothing about it. -/
theorem waiting_next (horder : session.InOrder) (hothers : session.levels.pop.1.Decided)
    {after : Frame} {name : String} (htop : (engine.next session exchange).levels.top? = some after)
    (hwaiting : after.pendingInterruption = some name) :
    (∃ target, target.name = name ∧ engine.Requests session exchange after target) ∨
      ∃ before, session.levels.top? = some before ∧ before.Alike after ∧
        before.pendingInterruption = some name ∧
        (exchange.entry.role = .user → Command.ofInput? exchange.entry.content = some .help ∨
          Command.ofInput? exchange.entry.content = some .status) := by
  by_cases hrole : exchange.entry.role = .user
  · cases hopening : engine.opening exchange.journal session exchange.entry with
    | running turn =>
        have hordered := opening_inOrder engine horder hrole
        rw [hopening] at hordered
        have hdecided := opening_decided hothers hrole hopening
        obtain ⟨hnext, -⟩ := ran_of_running horder hrole hopening
        rw [hnext, (Turn.session_run engine turn).1] at htop
        have hnone := ((Turn.runs_drive engine turn).settling hordered hdecided).2 after
          (Levels.mem_frames.2 (.inl (List.mem_of_head? htop)))
        cases hwaiting.symm.trans hnone
    | answered turn response =>
        rcases hlevels : session.levels with ⟨current, suspended⟩
        cases current with
        | nil =>
            obtain ⟨hwelcome, hheard⟩ := opening_of_nil engine exchange hlevels
            rw [(next_of_answered horder hrole hopening).1,
              Turn.session_of_welcome (hwelcome.symm.trans hopening), hheard] at htop
            cases htop
        | cons frame callers =>
            rcases waiting_of_answered horder hrole hlevels hopening htop hwaiting with
              hasked | ⟨halike, hbefore, hcommand⟩
            · exact .inl hasked
            · exact .inr ⟨frame, rfl, halike, hbefore, fun _ => hcommand⟩
  · obtain ⟨before, hbefore, halike, hwaited⟩ := waiting_unheard hrole htop hwaiting
    exact .inr ⟨before, hbefore, halike, hwaited, fun h => absurd h hrole⟩

/-- What waits for confirmation has been asked about, and the user has said nothing about it
since. -/
theorem asked_of_waiting (hfirst : engine.Reachable session) (hidle : session.levels.top? = none)
    (exchanges : List Exchange) {frame : Frame} {name : String}
    (htop : (engine.after session exchanges).levels.top? = some frame)
    (hwaiting : frame.pendingInterruption = some name) :
    ∃ target, target.name = name ∧ engine.Asked session exchanges frame target := by
  induction exchanges using List.reverseRecOn generalizing frame with
  | nil => cases hidle.symm.trans htop
  | append_singleton earlier last ih =>
      have hbefore := hfirst.after earlier
      have hnext : engine.after session (earlier ++ [last]) =
          engine.next (engine.after session earlier) last := List.foldl_append
      rw [hnext] at htop
      rcases waiting_next hbefore.inOrder hbefore.others htop hwaiting with
        ⟨target, hname, hrequests⟩ | ⟨before, hbefore', halike, hwaited, hsilent⟩
      · exact ⟨target, hname, earlier, last, [], rfl, hrequests, by simp⟩
      · obtain ⟨target, hname, start, request, between, rfl, hrequests, hbetween⟩ :=
          ih hbefore' hwaited
        refine ⟨target, hname, start, request, between ++ [last], by simp, hrequests.alike halike,
          ?_⟩
        intro other hother
        rcases List.mem_append.1 hother with hin | hlast
        · exact hbetween other hin
        · obtain rfl := List.mem_singleton.1 hlast
          exact hsilent

/-! ## Levels that are opened -/

/-- The beats of an exchange are those of a run after its beginning, or a single one that only
touches the session. -/
theorem beats_cases (engine : Engine) (horder : session.InOrder) (exchange : Exchange) :
    (∃ turn, exchange.entry.role = .user ∧
      engine.opening exchange.journal session exchange.entry = .running turn ∧
      engine.beats session exchange = ⟨session.levels, none, turn.session.levels⟩ ::
        Turn.beats engine (turn.drive engine) (turn.trail engine)) ∨
    session.Touched (engine.next session exchange) ∧
      engine.beats session exchange =
        [⟨session.levels, none, (engine.next session exchange).levels⟩] := by
  by_cases hruns : ∃ turn, engine.opening? session exchange = some (.running turn)
  · obtain ⟨turn, hruns⟩ := hruns
    obtain ⟨hrole, hopening⟩ := opening_of_opening? hruns
    exact .inl ⟨turn, hrole, hopening, by simp only [beats, hruns]⟩
  · refine .inr ⟨?_, ?_⟩
    · rcases next_cases engine session exchange with htouched | ⟨turn, hrole, hopening, -⟩
      · exact htouched
      · exact absurd ⟨turn, by simp [opening?, hrole, horder.danglingFrame?, hopening]⟩ hruns
    · unfold beats
      split
      · rename_i turn hopening
        exact absurd ⟨turn, hopening⟩ hruns
      · rfl

end Engine

/-- There are more levels after the beat than before. -/
def Beat.opens (beat : Beat) : Bool :=
  decide (beat.before.count < beat.after.count)

theorem Turn.Settling.opens {beat : Beat} (h : Turn.Settling beat) : beat.opens = false := by
  have hlength := h.below.length_le
  refine decide_eq_false ?_
  unfold Levels.count
  omega

namespace Engine

variable {engine : Engine} {session : Session} {exchange : Exchange}

/-- Throughout an exchange only the frame that runs can have a flow that waits for confirmation, and
at most one beat opens a level. -/
theorem beats_opened (horder : session.InOrder) (hothers : session.levels.pop.1.Decided)
    (exchange : Exchange) :
    (∀ beat ∈ engine.beats session exchange,
      beat.before.pop.1.Decided ∧ beat.after.pop.1.Decided) ∧
    (engine.beats session exchange).countP Beat.opens ≤ 1 ∧
    ∀ beat ∈ engine.beats session exchange, beat.opens = true →
      ∃ turn, exchange.entry.role = .user ∧
        engine.opening exchange.journal session exchange.entry = .running turn ∧
        beat = ⟨session.levels, none, turn.session.levels⟩ := by
  rcases beats_cases engine horder exchange with
    ⟨turn, hrole, hopening, hbeats⟩ | ⟨htouched, hbeats⟩
  · have hordered := opening_inOrder engine horder hrole
    rw [hopening] at hordered
    have hdecided := opening_decided hothers hrole hopening
    have hsettling := ((Turn.runs_drive engine turn).settling hordered hdecided).1
    have hnone : (Turn.beats engine (turn.drive engine) (turn.trail engine)).countP Beat.opens =
        0 := by
      rw [List.countP_eq_zero]
      intro beat hbeat
      simp [(hsettling beat hbeat).opens]
    rw [hbeats]
    refine ⟨?_, ?_, ?_⟩
    · intro beat hbeat
      rcases List.mem_cons.1 hbeat with rfl | hlater
      · exact ⟨hothers, hdecided.pop⟩
      · exact ⟨(hsettling beat hlater).before.pop, (hsettling beat hlater).after.pop⟩
    · rw [List.countP_cons, hnone]
      split <;> simp
    · intro beat hbeat hopens
      rcases List.mem_cons.1 hbeat with rfl | hlater
      · exact ⟨turn, hrole, hopening, rfl⟩
      · rw [(hsettling beat hlater).opens] at hopens
        cases hopens
  · rw [hbeats]
    refine ⟨?_, List.countP_le_length, ?_⟩
    · intro beat hbeat
      obtain rfl := List.mem_singleton.1 hbeat
      exact ⟨hothers, by rwa [htouched.others]⟩
    · intro beat hbeat hopens
      obtain rfl := List.mem_singleton.1 hbeat
      obtain ⟨change, -, hafter⟩ := htouched.levels
      rw [Levels.modifyTop_eq] at hafter
      simp [Beat.opens, Levels.count, hafter] at hopens

theorem count_of_opening_idle {turn : Turn} {suspended : List Level}
    (hlevels : session.levels = ⟨[], suspended⟩) (hrole : exchange.entry.role = .user)
    (hopening : engine.opening exchange.journal session exchange.entry = .running turn) :
    turn.session.levels.count = session.levels.count := by
  have hbegun := opening_begun hrole hopening
  rw [hlevels] at hbegun ⊢
  generalize turn.session.levels = after at hbegun ⊢
  cases hbegun with
  | kept frame frame' callers below hbefore halike => cases hbefore
  | cancelled frame callers below hbefore => cases hbefore
  | interrupted frame frame' callers below key flow scope transaction hbefore => cases hbefore
  | welcomed below key flow scope transaction hbefore hflow =>
      cases hbefore
      rfl

theorem switchTo_opens {turn : Turn} {frame : Frame} {callers : Level} {suspended : List Level}
    (hlevels : turn.session.levels = ⟨frame :: callers, suspended⟩) (target : Definition) :
    (turn.switchTo target).session.levels.count = turn.session.levels.count + 1 ∧
      ∃ scope transaction,
        (turn.switchTo target).session.levels.current = [.start target scope transaction] := by
  rw [Turn.levels_switchTo hlevels, hlevels]
  exact ⟨rfl, _, _, rfl⟩

/-- A turn that begins with one level more interrupts the frame that ran, and if the flow of that
frame must not be left without confirmation, the flow that interrupts it has been confirmed. -/
theorem interrupted_of_opening {turn : Turn} (hrole : exchange.entry.role = .user)
    (hopening : engine.opening exchange.journal session exchange.entry = .running turn)
    (hmore : session.levels.count < turn.session.levels.count) :
    ∃ frame, session.levels.top? = some frame ∧
      turn.session.levels.count = session.levels.count + 1 ∧
      ∃ target scope transaction,
        turn.session.levels.current = [.start target scope transaction] ∧
        (Turn.needsConfirmation engine frame.flowName = true →
          Command.ofInput? exchange.entry.content = some .switch ∧
          ∃ name, frame.pendingInterruption = some name ∧
            engine.library.get? name = some target) := by
  rcases hlevels : session.levels with ⟨current, suspended⟩
  cases current with
  | nil => exact absurd hmore (count_of_opening_idle hlevels hrole hopening).not_gt
  | cons frame callers =>
      rw [hlevels] at hmore
      obtain ⟨opened, reaction, hreacted, -, hcarried⟩ := opening_reacted engine hrole hlevels
      have hrunning := hcarried.symm.trans hopening
      refine ⟨frame, rfl, ?_⟩
      cases hreacted with
      | obeyed command reaction hcommand hobeyed =>
          rcases hobeyed with ⟨-, rfl⟩ | ⟨-, rfl⟩ | ⟨-, rfl⟩
          · have hheard : (heard session exchange).session.levels =
                ⟨frame.record exchange.entry :: callers, suspended⟩ :=
              Session.levels_hear hlevels _
            obtain ⟨cancelled, hcancelled, hdrained, -⟩ := Turn.cancel_running hheard engine
            cases hcancelled.symm.trans hrunning
            rw [hdrained] at hmore
            exact absurd hmore (Nat.lt_irrefl _)
          · cases hrunning
          · cases hrunning
      | switched opened name target hopened hcommand hwaiting hflow =>
          cases hrunning
          obtain ⟨hcount, scope, transaction, hcurrent⟩ := switchTo_opens hopened target
          rw [hopened] at hcount
          exact ⟨hcount, target, scope, transaction, hcurrent,
            fun _ => ⟨hcommand, name, hwaiting, hflow⟩⟩
      | settled opened reaction hopened hsettled =>
          -- the flow that runs goes on with the levels there were
          have hsame : turn.session.levels = opened.session.levels := by
            rcases hsettled with rfl | rfl
            · cases hrunning
              rfl
            · cases hrunning
              rfl
          rw [hsame, hopened] at hmore
          exact absurd hmore (Nat.lt_irrefl _)
      | asked opened key target hopened hflow => cases hrunning
      | wished opened key target hopened hflow hrisk =>
          cases hrunning
          obtain ⟨hcount, scope, transaction, hcurrent⟩ := switchTo_opens hopened target
          rw [hopened] at hcount
          refine ⟨hcount, target, scope, transaction, hcurrent, fun hconfirm => ?_⟩
          exact absurd (hconfirm.symm.trans hrisk) (by simp)

/-- Throughout every exchange only the frame that runs can have a flow that waits for confirmation.
At most one beat of the exchange opens a level, and it opens one; if the flow of the frame that ran
is of high risk, then the user has said the word, the frame has waited for it since the user was
asked about the flow, and this is the flow that starts. -/
theorem left_only_when_confirmed (hbuilt : engine.Built) (userId id : String)
    (exchanges : List Exchange) (exchange : Exchange) :
    let first := engine.startSession userId id
    let session := engine.after first exchanges
    (∀ beat ∈ engine.beats session exchange,
      beat.before.pop.1.Decided ∧ beat.after.pop.1.Decided) ∧
    (engine.beats session exchange).countP Beat.opens ≤ 1 ∧
    ∀ beat ∈ engine.beats session exchange, beat.opens = true →
      exchange.entry.role = .user ∧ beat.after.count = session.levels.count + 1 ∧
      ∃ frame target scope transaction, session.levels.top? = some frame ∧
        beat.after.current = [.start target scope transaction] ∧
        ∀ flow ∈ engine.library.flows, flow.name = frame.flowName → flow.isHighRisk = true →
          Command.ofInput? exchange.entry.content = some .switch ∧
          frame.pendingInterruption = some target.name ∧
          engine.Asked first exchanges frame target := by
  intro first session
  have hfirst : engine.Reachable first := .start userId id
  have hsession : engine.Reachable session := hfirst.after exchanges
  obtain ⟨hdecided, honce, hopened⟩ := beats_opened hsession.inOrder hsession.others exchange
  refine ⟨hdecided, honce, ?_⟩
  intro beat hbeat hopens
  obtain ⟨turn, hrole, hopening, rfl⟩ := hopened beat hbeat hopens
  obtain ⟨frame, htop, hcount, target, scope, transaction, hcurrent, hconfirmed⟩ :=
    interrupted_of_opening hrole hopening (by simpa [Beat.opens] using hopens)
  refine ⟨hrole, hcount, frame, target, scope, transaction, htop, hcurrent, ?_⟩
  intro flow hflow hname hrisk
  have hfind : ∀ {definition : Definition} {key : String},
      engine.library.get? key = some definition →
      engine.library.get? definition.name = some definition := fun hkey =>
    hbuilt.library.get?_of_mem (Library.mem_of_get? hkey) (Library.name_mem_keys _)
  have hneeds : Turn.needsConfirmation engine frame.flowName = true := by
    have hget := hbuilt.library.get?_of_mem hflow (Library.name_mem_keys flow)
    simp [Turn.needsConfirmation, ← hname, hget, hrisk]
  obtain ⟨hcommand, name, hwaiting, htarget⟩ := hconfirmed hneeds
  obtain ⟨asked, rfl, hasked⟩ := asked_of_waiting hfirst rfl exchanges htop hwaiting
  -- the name that waits is that of one flow only
  obtain ⟨before, request, between, hsplit, hrequests, hbetween⟩ := hasked
  obtain ⟨key, hkey⟩ := hrequests.known
  have hsame : asked = target := Option.some.inj ((hfind hkey).symm.trans htarget)
  subst hsame
  exact ⟨hcommand, hwaiting, before, request, between, hsplit, hrequests, hbetween⟩

end Engine

namespace Kiosk

/-- A flow of high risk: its name says that it is about money. -/
def payment : Definition :=
  flow "Payment" "How much?" "amount"

/-- The small engine with such a flow. -/
def bank : Engine :=
  { engine with
    library := stocked [payment, flow "Weather" "Which city?" "city"]
    catalog := .standard }

theorem bank_built : bank.Built := by
  have hlibrary : bank.library.Built := Library.Built.empty.insertUntil _
  exact ⟨⟨bank.library, [], [], bank.catalog, bank.settings, none, bank.globals, false,
    some bank.model, bank.invoker, bank.now⟩, hlibrary, rfl⟩

/-- A guest who pays wants to know the weather, is asked, asks for help and says the word: the
payment is interrupted, as the guest was told. -/
theorem payment_left :
    bank.Built ∧ ∃ frame target before request between,
      (["Payment", "Weather", "help"].map guest) = before ++ request :: between ∧
      bank.Requests (bank.after (bank.startSession "guest" "bank") before) request frame target ∧
      frame.flowName = "Payment" ∧ target.name = "Weather" ∧
      ∃ response, bank.response? (bank.after (bank.startSession "guest" "bank") before) request =
        some response ∧ mentions "Weather" response = true := by
  have hopens : ((bank.beats (bank.after (bank.startSession "guest" "bank")
      (["Payment", "Weather", "help"].map guest)) (guest "switch")).any fun beat =>
        beat.opens && decide (beat.after.top?.map Frame.flowName = some "Weather")) = true := by
    decide +kernel
  have htop : (bank.after (bank.startSession "guest" "bank")
      (["Payment", "Weather", "help"].map guest)).levels.top?.map Frame.flowName =
        some "Payment" := by decide +kernel
  obtain ⟨beat, hbeat, hmore⟩ := List.any_eq_true.1 hopens
  obtain ⟨hmore, hname⟩ := Bool.and_eq_true_iff.1 hmore
  obtain ⟨-, -, hconfirmed⟩ := Engine.left_only_when_confirmed bank_built "guest" "bank"
    (["Payment", "Weather", "help"].map guest) (guest "switch")
  obtain ⟨-, -, frame, target, scope, transaction, hframe, hcurrent, hasked⟩ :=
    hconfirmed beat hbeat hmore
  rw [hframe] at htop
  have hflow : payment.name = frame.flowName := (Option.some.inj htop).symm
  have htarget : target.name = "Weather" := by
    simpa [Levels.top?, hcurrent, Frame.start] using hname
  obtain ⟨-, -, before, request, between, hsplit, hrequests, -⟩ :=
    hasked payment List.mem_cons_self hflow (by decide +kernel)
  have hnamed := hrequests.named (Engine.place_standard bank.settings.language)
  rw [htarget] at hnamed
  exact ⟨bank_built, frame, target, before, request, between, hsplit, hrequests, hflow.symm,
    htarget, hnamed⟩

end Kiosk

end Parley
