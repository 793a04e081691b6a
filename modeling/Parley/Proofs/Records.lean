import Parley.Proofs.Confirmations

/-!
# The records of a frame

A frame holds the records of its steps in its transaction and in the transactions of the flows that
it ran before.  Every step, every beginning of a turn and every handover adds to them at the end
and leaves alone what is there, and so it is with the conversation that the frame has seen.  There
is one exception: a frame that goes on after an interruption drops the transaction that the
interruption had completed, and with it the records in there.
-/

set_option autoImplicit false

namespace Parley

namespace Frame

/-- The records of the flows that the frame ran before the one it runs. -/
def formerRecords (frame : Frame) : List StepRecord :=
  frame.replaced.flatMap Transaction.steps

/-- The records of all steps of the frame, the oldest first. -/
def records (frame : Frame) : List StepRecord :=
  frame.formerRecords ++ frame.transaction.steps

/-- The transaction of a frame that is interrupted is finished, with the records it has. -/
theorem steps_paused (frame : Frame) :
    (Turn.paused frame).transaction.steps = frame.transaction.steps := by
  simp only [Turn.paused, Transaction.complete, Transaction.finish, Transaction.ifActive]
  split <;> rfl

/-- A frame keeps what another one holds: of the conversation, of former transactions and of
records it has the same, in the same order, and what is new stands at the end. -/
structure Keeps (before after : Frame) : Prop where
  context : before.context <+: after.context
  replaced : before.replaced <+: after.replaced
  records : before.records <+: after.records

namespace Keeps

variable {before middle after : Frame}

theorem refl (frame : Frame) : frame.Keeps frame :=
  ⟨List.prefix_rfl, List.prefix_rfl, List.prefix_rfl⟩

theorem trans (h : before.Keeps middle) (h' : middle.Keeps after) : before.Keeps after :=
  ⟨h.context.trans h'.context, h.replaced.trans h'.replaced, h.records.trans h'.records⟩

/-- The current transaction may get further records as long as the former ones stay as they are. -/
theorem of_steps (hcontext : before.context <+: after.context)
    (hreplaced : after.replaced = before.replaced)
    (hsteps : before.transaction.steps <+: after.transaction.steps) : before.Keeps after := by
  refine ⟨hcontext, by rw [hreplaced], ?_⟩
  unfold Frame.records formerRecords
  rw [hreplaced]
  exact (List.prefix_append_right_inj _).2 hsteps

theorem record (frame : Frame) (entry : Entry) : frame.Keeps (frame.record entry) :=
  of_steps (List.prefix_append _ _) rfl List.prefix_rfl

theorem withInterruption (frame : Frame) (target : Option String) :
    frame.Keeps { frame with pendingInterruption := target } :=
  of_steps List.prefix_rfl rfl List.prefix_rfl

theorem paused (frame : Frame) : frame.Keeps (Turn.paused frame) :=
  of_steps List.prefix_rfl rfl (by rw [steps_paused])

end Keeps

theorem Continues.keeps {before after : Frame} (h : before.Continues after) :
    before.Keeps after := by
  obtain ⟨entries, hentries⟩ := h.entries
  obtain ⟨records, hrecords⟩ := h.records
  refine .of_steps ⟨entries, hentries.symm⟩ h.replaced ?_
  rw [hrecords]
  exact List.prefix_append _ _

/-- A frame that is handed to another flow keeps the transaction of the former one. -/
theorem handTo_keeps (frame : Frame) (flow : Definition) {transaction closed : Transaction}
    (hsteps : frame.transaction.steps <+: closed.steps) :
    frame.Keeps
      { frame.handTo flow transaction with replaced := frame.replaced ++ [closed] } := by
  refine ⟨List.prefix_rfl, List.prefix_append _ _, ?_⟩
  have hformer : frame.records <+: frame.formerRecords ++ closed.steps :=
    (List.prefix_append_right_inj _).2 hsteps
  have hall : frame.formerRecords ++ closed.steps <+: Frame.records
      { frame.handTo flow transaction with replaced := frame.replaced ++ [closed] } := by
    simp [Frame.records, formerRecords]
  exact hformer.trans hall

end Frame

/-- Whatever its effect, a step keeps what its frame holds. -/
theorem Effect.keeps {stage : Stage} {step : Step} {scene : Scene} {outcome : Outcome}
    (h : Effect stage step scene outcome) : scene.frame.Keeps outcome.scene.frame := by
  cases h with
  | proceeded after pushed hkind hframe => exact hframe.keeps
  | answered after target input hkind hwaiting hsaid hframe => exact hframe.keeps
  | asked after id message target hstep hready hframe => exact hframe.keeps
  | remarked after id message hstep hready hframe => exact hframe.keeps
  | gaveUp after hkind hframe => exact hframe.keeps
  | entered after flow initiator hkind hroom hframe => exact hframe.keeps
  | replaced after flow initiator closed hkind hframe hclosed hreason hinput htarget hrecords =>
      rw [hframe]
      exact scene.frame.handTo_keeps flow hrecords
  | rebooted after id key flow hstep hflow hframe =>
      rw [hframe]
      exact .refl _
  | failed error hkind herror => exact .refl _

/-! ## Levels -/

namespace Levels

/-- The frame with so many others beneath it. -/
def frameAt? (levels : Levels) (place : Nat) : Option Frame :=
  levels.frames.reverse[place]?

/-- What becomes of levels as long as nothing starts anew and no interrupted frame goes on: frames
are dropped from the top or come on top, and all others keep what they hold. -/
inductive Tended : Levels → Levels → Prop where
  | dropped (gone current : Level) (suspended : List Level) :
      Tended ⟨gone ++ current, suspended⟩ ⟨current, suspended⟩
  | kept (frame frame' : Frame) (callers : Level) (suspended : List Level)
      (hkeeps : frame.Keeps frame') :
      Tended ⟨frame :: callers, suspended⟩ ⟨frame' :: callers, suspended⟩
  | called (frame frame' top : Frame) (callers : Level) (suspended : List Level)
      (hkeeps : frame.Keeps frame') :
      Tended ⟨frame :: callers, suspended⟩ ⟨top :: frame' :: callers, suspended⟩
  | interrupted (frame frame' top : Frame) (callers : Level) (suspended : List Level)
      (hkeeps : frame.Keeps frame') :
      Tended ⟨frame :: callers, suspended⟩ ⟨[top], (frame' :: callers) :: suspended⟩
  | started (top : Frame) (suspended : List Level) : Tended ⟨[], suspended⟩ ⟨[top], suspended⟩

namespace Tended

variable {before after : Levels}

theorem refl (levels : Levels) : levels.Tended levels :=
  .dropped [] levels.current levels.suspended

theorem drained (levels : Levels) : levels.Tended ⟨[], levels.suspended⟩ := by
  have h := Tended.dropped levels.current [] levels.suspended
  rwa [List.append_nil] at h

/-- No level is left. -/
theorem count_le (h : before.Tended after) : before.count ≤ after.count := by
  cases h with
  | interrupted frame frame' top callers suspended hkeeps => exact Nat.le_succ _
  | _ => exact Nat.le_refl _

/-- A frame whose place stays occupied keeps what it holds. -/
theorem keeps (h : before.Tended after) {place : Nat} {a b : Frame}
    (ha : before.frameAt? place = some a) (hb : after.frameAt? place = some b) : a.Keeps b := by
  have hunder : ∀ {frame frame' : Frame} {rest : List Frame}, frame.Keeps frame' →
      (frame :: rest).reverse[place]? = some a → (frame' :: rest).reverse[place]? = some b →
      a.Keeps b := by
    intro frame frame' rest hkeeps ha hb
    rcases place_cons_cons ha hb with ⟨-, rfl⟩ | ⟨-, rfl, rfl⟩
    · exact .refl _
    · exact hkeeps
  -- a frame beneath one that came on top was beneath no other before
  have hcovered : ∀ {top frame frame' : Frame} {rest : List Frame}, frame.Keeps frame' →
      (frame :: rest).reverse[place]? = some a →
      (top :: frame' :: rest).reverse[place]? = some b → a.Keeps b := by
    intro top frame frame' rest hkeeps ha hb
    rcases place_cons hb with hb | ⟨htop, -⟩
    · exact hunder hkeeps ha hb
    · have hplace := place_lt ha
      simp only [List.length_cons] at hplace htop
      omega
  cases h with
  | dropped gone current suspended =>
      have hsame : (gone ++ (Levels.mk current suspended).frames).reverse[place]? = some b :=
        place_append gone hb
      have hframes : gone ++ (Levels.mk current suspended).frames =
          (Levels.mk (gone ++ current) suspended).frames := by simp [frames, inward]
      rw [hframes] at hsame
      cases ha.symm.trans hsame
      exact .refl _
  | kept frame frame' callers suspended hkeeps => exact hunder hkeeps ha hb
  | called frame frame' top callers suspended hkeeps => exact hcovered hkeeps ha hb
  | interrupted frame frame' top callers suspended hkeeps => exact hcovered hkeeps ha hb
  | started top suspended =>
      have hsame := place_append [top] ha
      cases hsame.symm.trans hb
      exact .refl _

/-- The frame that runs may have kept something before. -/
theorem of_keeps {frame frame' : Frame} {callers : Level} {suspended : List Level}
    (hkeeps : frame.Keeps frame') (h : Tended ⟨frame' :: callers, suspended⟩ after) :
    Tended ⟨frame :: callers, suspended⟩ after := by
  generalize hbefore : Levels.mk (frame' :: callers) suspended = before at h
  cases h with
  | dropped gone current below =>
      cases gone with
      | nil =>
          cases hbefore
          exact .kept frame frame' callers suspended hkeeps
      | cons top later =>
          cases hbefore
          exact .dropped (frame :: later) current suspended
  | kept top top' others below hlater =>
      cases hbefore
      exact .kept frame top' callers suspended (hkeeps.trans hlater)
  | called top top' new others below hlater =>
      cases hbefore
      exact .called frame top' new callers suspended (hkeeps.trans hlater)
  | interrupted top top' new others below hlater =>
      cases hbefore
      exact .interrupted frame top' new callers suspended (hkeeps.trans hlater)
  | started new below => cases hbefore

end Tended

end Levels

/-! ## Beats -/

/-- How a beat deals with frames. -/
inductive Beat.Tends (beat : Beat) : Prop where
  /-- Everything starts anew. -/
  | rebooted (id key : String) (hreboot : beat.dispatched = some (.callFlow id key .reboot))
  /-- Frames may go and come, and the others keep what they hold. -/
  | tended (htended : beat.before.Tended beat.after)
  /-- The innermost level, without frames, is left, and a frame that was interrupted goes on. -/
  | resumed (userId : String) (frame : Frame) (callers : Level) (below : List Level)
      (hstate : frame.transaction.state = .completed)
      (hbefore : beat.before = ⟨[], (frame :: callers) :: below⟩)
      (hafter : beat.after = ⟨Turn.resumed userId frame :: callers, below⟩)

namespace Turn

variable {engine : Engine} {turn : Turn}

theorem settle_tended {frame : Frame} {callers : Level} {suspended : List Level} {step : Step}
    {vars : Fields} {outcome : Outcome}
    (hlevels : turn.session.levels = ⟨frame :: callers, suspended⟩)
    (heffect : Effect (turn.stage engine) step (turn.scene frame vars) outcome)
    (hnext : ∀ flow, outcome.next ≠ .ok (.restart flow)) :
    turn.session.levels.Tended (turn.settle outcome).1.session.levels := by
  have hkeeps : frame.Keeps outcome.scene.frame := heffect.keeps
  rw [levels_settle hlevels outcome hnext, hlevels]
  obtain ⟨scene, next⟩ := outcome
  match next with
  | .ok .proceed | .ok .await | .error _ => exact .kept frame scene.frame callers suspended hkeeps
  | .ok .leave => exact .dropped [frame] callers suspended
  | .ok (.enter top) => exact .called frame scene.frame top callers suspended hkeeps
  | .ok (.restart flow) => exact absurd rfl (hnext flow)

theorem step_tends (engine : Engine) (horder : turn.session.InOrder) :
    Beat.Tends ⟨turn.session.levels, (turn.task engine).step?,
      (turn.step engine).1.session.levels⟩ := by
  have hmove := step_move engine horder
  generalize turn.step engine = result at hmove
  cases hmove with
  | idled hlevels => exact .tended (.refl _)
  | resumed frame callers below hlevels =>
      -- the frame on top of an interrupted level is the one that was paused
      obtain ⟨top, others, hlevel, hstate, -⟩ :=
        horder.wellAccounted.paused (frame :: callers) (by simp [hlevels])
      cases hlevel
      exact .resumed turn.session.userId frame callers below hstate hlevels rfl
  | exhausted frame callers suspended hlevels hlimit => exact .tended (.refl _)
  | finished frame callers suspended hlevels hlimit hsteps =>
      refine .tended ?_
      rw [hlevels]
      exact .dropped [frame] callers suspended
  | performed frame callers suspended step rest vars outcome hlevels hlimit hsteps hvars heffect =>
      by_cases hrestart : ∃ flow, outcome.next = .ok (.restart flow)
      · obtain ⟨flow, hflow⟩ := hrestart
        obtain ⟨id, key, rfl⟩ := heffect.restart hflow
        have htask : turn.task engine = .dispatch frame (.callFlow id key .reboot) :=
          task_eq_dispatch.2 ⟨by simp [hlevels, Levels.top?], hlimit, rest, hsteps⟩
        exact .rebooted id key (by rw [htask]; rfl)
      · have hcharged : turn.charged.session.levels = ⟨frame :: callers, suspended⟩ := hlevels
        exact .tended (settle_tended hcharged heffect fun flow hflow => hrestart ⟨flow, hflow⟩)

/-- A round deals with frames as its step does, and may drop those of the innermost level. -/
theorem round_tends {next : Turn} (horder : turn.session.InOrder)
    (h : turn.round engine = .onward next ∨ turn.round engine = .ended next) :
    Beat.Tends ⟨turn.session.levels, (turn.task engine).step?, next.session.levels⟩ := by
  have hstep := step_tends engine horder
  obtain ⟨-, hfails⟩ := step_shift engine horder
  have haborted : ∀ failed error, turn.step engine = (failed, .error error) →
      Beat.Tends ⟨turn.session.levels, (turn.task engine).step?,
        (failed.abort engine error).session.levels⟩ := by
    intro failed error hfailed
    obtain ⟨hlevels, -⟩ := hfails error (by rw [hfailed])
    rw [hfailed] at hlevels
    have hdrained : (failed.abort engine error).session.levels =
        ⟨[], turn.session.levels.suspended⟩ := by
      rw [← hlevels]
      rfl
    rw [hdrained]
    exact .tended (.drained _)
  rcases h with honward | hended
  · rcases round_onward honward with hrunning | ⟨failed, error, hfailed, -, rfl⟩
    · rwa [hrunning] at hstep
    · exact haborted failed error hfailed
  · rcases round_ended hended with hblocked | ⟨idle, hdone, rfl⟩ | ⟨failed, error, hfailed, -, rfl⟩
    · rwa [hblocked] at hstep
    · rw [hdone] at hstep
      rwa [(levels_concluded engine idle).1]
    · exact haborted failed error hfailed

theorem Runs.tend {rounds : List Turn} {final : Turn} (hrun : Runs engine turn rounds final)
    (horder : turn.session.InOrder) : ∀ beat ∈ Turn.beats engine final rounds, beat.Tends := by
  induction hrun with
  | last hended =>
      intro beat hbeat
      obtain rfl := List.mem_singleton.1 hbeat
      exact round_tends horder (.inr hended)
  | more honward hrest ih =>
      have hfirst := round_tends horder (.inl honward)
      have hlater := ih (round_inOrder horder honward)
      intro beat hbeat
      cases hrest with
      | last hended =>
          rcases List.mem_cons.1 hbeat with rfl | hin
          · exact hfirst
          · exact hlater beat hin
      | more hsecond hmore =>
          rcases List.mem_cons.1 hbeat with rfl | hin
          · exact hfirst
          · exact hlater beat hin

/-! ## How turns begin -/

section Opening

variable {frame : Frame} {callers : Level} {suspended : List Level} {input : String}

/-- A reaction to an input lets the frame that runs keep what it holds, unless it is given up. -/
theorem Reacted.tended {after : Turn} {reaction : Reaction}
    (h : Reacted engine turn frame callers suspended input after reaction)
    (hlevels : turn.session.levels = ⟨frame :: callers, suspended⟩) (named : Frame) :
    (Levels.mk (frame :: callers) suspended).Tended
      (after.carryOut engine named reaction).turn.session.levels := by
  have hdeclined : frame.Keeps (declined frame) := .withInterruption frame none
  have hswitch : ∀ target, after.session.levels = ⟨declined frame :: callers, suspended⟩ →
      (Levels.mk (frame :: callers) suspended).Tended (after.switchTo target).session.levels := by
    intro target hafter
    rw [levels_switchTo hafter]
    exact .interrupted frame _ _ callers suspended (hdeclined.trans (.paused _))
  cases h with
  | obeyed command reaction hcommand hreaction =>
      rcases hreaction with ⟨-, rfl⟩ | ⟨-, rfl⟩ | ⟨-, rfl⟩
      · obtain ⟨cancelled, hcancelled, hdrained, -⟩ := cancel_running hlevels engine
        simp only [carryOut, hcancelled, Opening.turn, hdrained]
        exact .drained (Levels.mk (frame :: callers) suspended)
      · simp only [carryOut, Opening.turn, hlevels]
        exact .refl _
      · simp only [carryOut, Opening.turn, hlevels]
        exact .refl _
  | switched after name target hafter hcommand hwaiting hflow => exact hswitch target hafter
  | settled after reaction hafter hreaction =>
      have hsame : (after.carryOut engine named reaction).turn.session.levels =
          after.session.levels := by rcases hreaction with rfl | rfl <;> rfl
      rw [hsame, hafter]
      exact .kept frame _ callers suspended hdeclined
  | asked after key target hafter hflow =>
      have hasked : (after.requestConfirmation target).session.levels =
          ⟨{ declined frame with pendingInterruption := some target.name } :: callers,
            suspended⟩ := by
        simp [requestConfirmation, modifyTop, hafter, Levels.modifyTop]
      simp only [carryOut, Opening.turn, hasked]
      exact .kept frame _ callers suspended (hdeclined.trans (.withInterruption _ _))
  | wished after key target hafter hflow hrisk => exact hswitch target hafter

theorem welcome_tended (engine : Engine) (hlevels : turn.session.levels = ⟨[], suspended⟩)
    (input : String) :
    (Levels.mk [] suspended).Tended (turn.welcome engine input).turn.session.levels := by
  unfold welcome
  simp only
  split
  · simp only [Opening.turn, hlevels]
    exact .refl _
  · simp only [Opening.turn, hlevels]
    exact .refl _
  · rename_i flow strength hother hintent
    have hstarted : (turn.activate flow "user").session.levels =
        ⟨[.start flow turn.session.scopes.nextId (.start flow.name "user" turn.session.userId)],
          suspended⟩ := by
      simp [activate, withSession, hlevels, Levels.push, Scopes.allocate]
    show (Levels.mk [] suspended).Tended (turn.activate flow "user").session.levels
    rw [hstarted]
    exact .started _ suspended

end Opening

end Turn

namespace Engine

variable {engine : Engine} {session : Session} {exchange : Exchange}

theorem opening_tended (engine : Engine) (session : Session)
    (hrole : exchange.entry.role = .user) :
    session.levels.Tended
      (engine.opening exchange.journal session exchange.entry).turn.session.levels := by
  rcases hlevels : session.levels with ⟨current, suspended⟩
  cases current with
  | nil =>
      obtain ⟨hopening, hheard⟩ := opening_of_nil engine exchange hlevels
      rw [hopening]
      exact Turn.welcome_tended engine hheard _
  | cons frame callers =>
      obtain ⟨opened, reaction, hreacted, -, hopening⟩ := opening_reacted engine hrole hlevels
      rw [hopening]
      have hheard : (heard session exchange).session.levels =
          ⟨frame.record exchange.entry :: callers, suspended⟩ := Session.levels_hear hlevels _
      exact .of_keeps (.record frame exchange.entry) (hreacted.tended hheard _)

theorem note_tended (session : Session) (entry : Entry) :
    session.levels.Tended (session.note entry).levels := by
  rcases hlevels : session.levels with ⟨current, suspended⟩
  cases current with
  | nil =>
      simp only [Session.note, hlevels, Levels.top?, List.head?_nil]
      exact .refl _
  | cons frame callers =>
      simp only [Session.note, hlevels, Levels.top?, List.head?_cons, Levels.modifyTop]
      exact .kept frame _ callers suspended (.record frame entry)

theorem beats_tend (horder : session.InOrder) (exchange : Exchange) :
    ∀ beat ∈ engine.beats session exchange, beat.Tends := by
  unfold beats
  split
  · rename_i turn hruns
    obtain ⟨hrole, hopening⟩ := opening_of_opening? hruns
    have hopened := opening_inOrder engine horder hrole
    have hbegin := opening_tended engine session hrole
    rw [hopening] at hopened hbegin
    intro beat hbeat
    rcases List.mem_cons.1 hbeat with rfl | hlater
    · exact .tended hbegin
    · exact (Turn.runs_drive engine turn).tend hopened beat hlater
  · rename_i hquiet
    intro beat hbeat
    obtain rfl := List.mem_singleton.1 hbeat
    refine .tended ?_
    show session.levels.Tended (engine.next session exchange).levels
    have hcourse := engine.course session exchange
    generalize engine.next session exchange = after at hcourse
    generalize engine.response? session exchange = response at hcourse
    generalize engine.trail session exchange = rounds at hcourse
    cases hcourse with
    | refused => exact .refl _
    | noted hrole => exact note_tended session exchange.entry
    | answered turn response hrole hopening =>
        have hbegin := opening_tended engine session hrole
        rwa [hopening] at hbegin
    | ran turn hrole hopening =>
        exact absurd (by simp [opening?, hrole, horder.danglingFrame?, hopening]) (hquiet turn)

theorem history_tends (horder : session.InOrder) (exchanges : List Exchange) :
    ∀ beat ∈ engine.history session exchanges, beat.Tends := by
  intro beat hbeat
  obtain ⟨earlier, exchange, later, -, hexchange⟩ := exchange_of_beat hbeat
  exact beats_tend (after_inOrder horder earlier) exchange beat hexchange

end Engine

/-! ## The life of a frame -/

namespace Beat

variable {beat : Beat} {place : Nat} {before after : Frame}

/-- The frame at the place was interrupted and goes on: the level above its own has been left. -/
def Resumes (beat : Beat) (place : Nat) : Prop :=
  beat.after.count < beat.before.count ∧ beat.before.frames.length = place + 1

/-- A frame that outlasts a beat keeps what it holds, unless it goes on after an interruption: then
it has a new transaction in place of the one that the interruption has completed. -/
theorem Tends.frame (h : beat.Tends) (houtlasts : beat.Outlasts place)
    (hbefore : beat.before.frameAt? place = some before)
    (hafter : beat.after.frameAt? place = some after) :
    (¬beat.Resumes place ∧ before.Keeps after) ∨
      beat.Resumes place ∧ before.transaction.state = .completed ∧
        ∃ userId, after = Turn.resumed userId before := by
  obtain ⟨first, dispatched, last⟩ := beat
  cases h with
  | rebooted id key hreboot => exact absurd hreboot (houtlasts.noReboot id key)
  | tended htended =>
      refine .inl ⟨?_, htended.keeps hbefore hafter⟩
      rintro ⟨hfewer, -⟩
      exact absurd hfewer (Nat.not_lt.2 htended.count_le)
  | resumed userId frame callers below hstate hfirst hlast =>
      cases hfirst
      cases hlast
      rcases place_cons_cons hbefore hafter with ⟨hbelow, rfl⟩ | ⟨htop, rfl, rfl⟩
      · refine .inl ⟨?_, .refl _⟩
        rintro ⟨-, hplace⟩
        have hlength : (callers ++ below.flatten).length + 1 = place + 1 := by
          simpa [Levels.frames, Levels.inward] using hplace
        have hunder : place < (callers ++ below.flatten).length := hbelow
        omega
      · refine .inr ⟨⟨Nat.lt_succ_self _, ?_⟩, hstate, userId, rfl⟩
        rw [htop]
        rfl

end Beat

namespace Frame

/-- A frame that goes on with a new transaction in place of one that is completed has seen the same
conversation, and of its records it has those of former flows. -/
theorem resumed_of_completed {frame : Frame} (hstate : frame.transaction.state = .completed)
    (userId : String) :
    (Turn.resumed userId frame).context = frame.context ∧
      (Turn.resumed userId frame).replaced = frame.replaced ∧
      (Turn.resumed userId frame).records = frame.formerRecords := by
  have hactive : frame.transaction.isActive = false := by simp [Transaction.isActive, hstate]
  refine ⟨rfl, rfl, ?_⟩
  simp [records, formerRecords, Turn.resumed, hactive, Transaction.start]

end Frame

theorem Levels.exists_frameAt {levels : Levels} {place : Nat}
    (h : place < levels.frames.length) : ∃ frame, levels.frameAt? place = some frame := by
  have hlt : place < levels.frames.reverse.length := by simpa using h
  exact ⟨_, List.getElem?_eq_getElem hlt⟩

namespace Beats

variable {library : Library} {first last : Levels} {beats : List Beat} {place : Nat}

/-- While a frame outlasts all beats it keeps the conversation that it has seen and its former
transactions, and all of its records as long as it does not go on after an interruption. -/
theorem keeps (h : Beats library first beats last) (htends : ∀ beat ∈ beats, beat.Tends)
    (houtlasts : ∀ beat ∈ beats, beat.Outlasts place) {before : Frame}
    (hbefore : first.frameAt? place = some before) :
    ∃ after, last.frameAt? place = some after ∧ before.context <+: after.context ∧
      before.replaced <+: after.replaced ∧
      ((∀ beat ∈ beats, ¬beat.Resumes place) → before.records <+: after.records) := by
  induction h generalizing before with
  | nil levels =>
      exact ⟨before, hbefore, List.prefix_rfl, List.prefix_rfl, fun _ => List.prefix_rfl⟩
  | @cons beat later final hshift hlater ih =>
      have houtlasts' := houtlasts beat List.mem_cons_self
      obtain ⟨middle, hmiddle⟩ := Levels.exists_frameAt houtlasts'.after
      obtain ⟨after, hafter, hcontext, hreplaced, hrecords⟩ :=
        ih (fun other hother => htends other (List.mem_cons_of_mem _ hother))
          (fun other hother => houtlasts other (List.mem_cons_of_mem _ hother)) hmiddle
      have hframe := (htends beat List.mem_cons_self).frame houtlasts' hbefore hmiddle
      refine ⟨after, hafter, ?_⟩
      rcases hframe with ⟨-, hkeeps⟩ | ⟨hresumes, hstate, userId, rfl⟩
      · exact ⟨hkeeps.context.trans hcontext, hkeeps.replaced.trans hreplaced, fun hnone =>
          hkeeps.records.trans (hrecords fun other hother =>
            hnone other (List.mem_cons_of_mem _ hother))⟩
      · exact ⟨hcontext, hreplaced, fun hnone =>
          absurd hresumes (hnone beat List.mem_cons_self)⟩

end Beats

namespace Engine

variable {engine : Engine} {session : Session}

/-- As long as a frame is there, the conversation that it has seen only grows at the end, and so do
its former transactions.  All records of its steps stay, in their order, except that a frame which
goes on after an interruption loses those of the transaction that the interruption completed, and
these only. -/
theorem records_kept_unless_resumed (h : engine.Reachable session) (exchanges : List Exchange)
    (stretch : List Beat) (hstretch : stretch <:+: engine.history session exchanges)
    (first last : Beat) (hfirst : stretch.head? = some first)
    (hlast : stretch.getLast? = some last) (place : Nat)
    (houtlasts : ∀ beat ∈ stretch, beat.Outlasts place) :
    ∃ before latest after, first.before.frameAt? place = some before ∧
      last.before.frameAt? place = some latest ∧ last.after.frameAt? place = some after ∧
      before.context <+: after.context ∧ before.replaced <+: after.replaced ∧
      ((∀ beat ∈ stretch, ¬beat.Resumes place) → before.records <+: after.records) ∧
      (last.Resumes place → latest.transaction.state = .completed ∧
        after.context = latest.context ∧ after.replaced = latest.replaced ∧
        after.records = latest.formerRecords) := by
  have htends : ∀ beat ∈ stretch, beat.Tends := fun beat hbeat =>
    history_tends h.inOrder exchanges beat (hstretch.subset hbeat)
  obtain ⟨start, final, hrun⟩ := (history_follows engine h.inOrder exchanges).of_stretch hstretch
  have hfirst' : first ∈ stretch := List.mem_of_head? hfirst
  have hlast' : last ∈ stretch := List.mem_of_getLast? hlast
  obtain ⟨before, hbefore⟩ := Levels.exists_frameAt (houtlasts first hfirst').before
  obtain ⟨latest, hlatest⟩ := Levels.exists_frameAt (houtlasts last hlast').before
  obtain rfl := hrun.head hfirst
  obtain rfl := hrun.getLast hlast
  obtain ⟨after, hafter, hcontext, hreplaced, hrecords⟩ := hrun.keeps htends houtlasts hbefore
  refine ⟨before, latest, after, hbefore, hlatest, hafter, hcontext, hreplaced, hrecords, ?_⟩
  intro hresumes
  rcases (htends last hlast').frame (houtlasts last hlast') hlatest hafter with
    ⟨hnone, -⟩ | ⟨-, hstate, userId, rfl⟩
  · exact absurd hresumes hnone
  · obtain ⟨hsame, hformer, hrest⟩ := Frame.resumed_of_completed hstate userId
    exact ⟨hstate, hsame, hformer, hrest⟩

end Engine

namespace Kiosk

/-- An engine with a flow that says something before it asks, and one that only says something. -/
def lobby : Engine :=
  { engine with
    library := stocked [{ flow "Greeting" "Your name?" "name" with
        steps := [.say "hello" (.plain "Hello"),
          .ask "question" (.plain "Your name?") (some "name")] },
      { flow "News" "" "" with steps := [.say "news" (.plain "No news")] }] }

/-- The beats of a guest who is greeted and then wants to know the news: the greeting is interrupted
and goes on in the same turn. -/
def lobbyBeats : List Beat :=
  lobby.history (lobby.startSession "guest" "lobby") (["Greeting", "News"].map guest)

theorem lobby_resumes : ∃ beat, [beat] <:+: lobbyBeats ∧ beat.Outlasts 0 ∧ beat.Resumes 0 ∧
    (beat.before.frameAt? 0).map (fun frame => (frame.records.length, frame.replaced.length)) =
      some (1, 0) ∧
    (beat.after.frameAt? 0).map (fun frame => frame.records.length) = some 0 := by
  have hbeats : (lobbyBeats.any fun beat =>
      beat.dispatched.isNone && decide (beat.after.count < beat.before.count) &&
        decide (beat.before.frames.length = 1) && decide (beat.after.frames.length = 1) &&
        decide ((beat.before.frameAt? 0).map
          (fun frame => (frame.records.length, frame.replaced.length)) = some (1, 0)) &&
        decide ((beat.after.frameAt? 0).map (fun frame => frame.records.length) = some 0)) =
      true := by decide +kernel
  obtain ⟨beat, hmem, hbeat⟩ := List.any_eq_true.1 hbeats
  simp only [Bool.and_eq_true, decide_eq_true_eq, Option.isNone_iff_eq_none] at hbeat
  obtain ⟨⟨⟨⟨⟨hnone, hfewer⟩, hbefore⟩, hafter⟩, hheld⟩, hleft⟩ := hbeat
  obtain ⟨earlier, later, hsplit⟩ := List.append_of_mem hmem
  exact ⟨beat, ⟨earlier, later, by rw [hsplit]; simp⟩, ⟨by omega, by omega, by simp [hnone]⟩,
    ⟨hfewer, hbefore⟩, hheld, hleft⟩

/-- When the greeting goes on, the transaction with the record of what it said is completed, and the
new one is all it has. -/
theorem greeting_resumed :
    ∃ beat, [beat] <:+: lobbyBeats ∧ beat.Resumes 0 ∧ ∃ latest after,
      beat.before.frameAt? 0 = some latest ∧ beat.after.frameAt? 0 = some after ∧
      latest.transaction.state = .completed ∧ latest.records.length = 1 ∧ after.records = [] := by
  obtain ⟨beat, hstretch, houtlasts, hresumes, hheld, -⟩ := lobby_resumes
  obtain ⟨before, latest, after, -, hlatest, hafter, -, -, -, hlost⟩ :=
    Engine.records_kept_unless_resumed (.start "guest" "lobby") (["Greeting", "News"].map guest)
      [beat] hstretch beat beat rfl rfl 0 (by simpa using houtlasts)
  obtain ⟨hstate, -, -, hrest⟩ := hlost hresumes
  simp only [hlatest, Option.map_some, Option.some.injEq, Prod.mk.injEq,
    List.length_eq_zero_iff] at hheld
  refine ⟨beat, hstretch, hresumes, latest, after, hlatest, hafter, hstate, hheld.1, ?_⟩
  rw [hrest, Frame.formerRecords, hheld.2, List.flatMap_nil]

/-- So the records of a frame that is still there do get lost. -/
theorem greeting_records_lost :
    ¬∀ session, lobby.Reachable session → ∀ exchanges, ∀ stretch,
      stretch <:+: lobby.history session exchanges → ∀ first last : Beat,
      stretch.head? = some first → stretch.getLast? = some last → ∀ place,
      (∀ beat ∈ stretch, beat.Outlasts place) → ∀ before after,
      first.before.frameAt? place = some before → last.after.frameAt? place = some after →
        before.records <+: after.records := by
  intro h
  obtain ⟨beat, hstretch, houtlasts, -, hheld, hleft⟩ := lobby_resumes
  obtain ⟨before, hbefore, hmore⟩ := Option.map_eq_some_iff.1 hheld
  obtain ⟨after, hafter, hnone⟩ := Option.map_eq_some_iff.1 hleft
  have hprefix := h _ (.start "guest" "lobby") (["Greeting", "News"].map guest) [beat] hstretch
    beat beat rfl rfl 0 (by simpa using houtlasts) before after hbefore hafter
  have hlength := hprefix.length_le
  simp only [Prod.mk.injEq] at hmore
  omega

end Kiosk

end Parley
