import Parley.Proofs.Unrolling

/-!
# Calling a flow is the same as inlining it

A flow that calls another one, and the flow in which the steps of the called one stand
in the place of the call, lead conversations in which the user cannot tell one from the
other: on every turn they give the same response, and after it all variables are the
same.  The called flow declares no variables, the steps are textual with plain texts,
no input is a command or taken for an intent, and no limit is reached.
-/

set_option autoImplicit false

namespace Parley

/-- What the model, the tools and the clock answer depends on the invocations of tools before, but
neither on the questions to the model nor on the time that has passed. -/
def Engine.Steady (engine : Engine) : Prop :=
  ∀ journal past : Journal, past.invoked = journal.invoked → engine.AnswersAlike journal past

/-- No round of the turn reaches a limit of the settings. -/
def Turn.WithinLimits (engine : Engine) (turn : Turn) : Prop :=
  ∀ round ∈ turn.trail engine, round.SparesLimits engine

instance (engine : Engine) (turn : Turn) : Decidable (turn.WithinLimits engine) :=
  inferInstanceAs (Decidable (∀ round ∈ turn.trail engine, round.SparesLimits engine))

/-! ## Sessions between turns -/

/-- The sessions of a conversation with called flows and of the one without them. -/
inductive Session.Abreast (engine : Engine) (suspended : List Level) (a b : Session) : Prop where
  /-- The flows are in progress. -/
  | calling (hbeside : a.Beside b)
      (hlevels : a.levels.Unrolls engine.library suspended b.levels)
  /-- The flows have ended, and no others were in progress. -/
  | idle (h : a.Resembles b) (hidle : a.levels = .empty)
  /-- The flows have ended, and those that they interrupted have gone on. -/
  | resumed (h : a.Resembles b) (hsteady : engine.Steady)

namespace Session

variable {library : Library} {suspended : List Level} {a b : Session}

/-- The variables of every level, the innermost first. -/
def varsByLevel (session : Session) : List (Option Fields) :=
  session.levels.inward.map fun level =>
    level.head?.bind fun frame => session.scopes.get? frame.scope

theorem Resembles.varsByLevel (h : a.Resembles b) : b.varsByLevel = a.varsByLevel := by
  obtain ⟨rename, scopes, lastEntry, history, h⟩ := h
  have hinward : (a.levels.renamed rename).inward =
      a.levels.inward.map fun level => level.map (Frame.renamed rename) := rfl
  simp only [Session.varsByLevel, hinward, List.map_map]
  apply List.map_congr_left
  intro level hlevel
  cases level with
  | nil => rfl
  | cons frame callers =>
      exact h.same frame (List.mem_flatten.2 ⟨_, hlevel, List.mem_cons_self⟩)

namespace Beside

theorem varsByLevel (h : a.Beside b) (hlevels : a.levels.Unrolls library suspended b.levels) :
    b.varsByLevel = a.varsByLevel := by
  have hscopes : b.scopes.get? = a.scopes.get? := funext h.scopes
  unfold Session.varsByLevel
  generalize a.levels = left at hlevels
  generalize b.levels = right at hlevels
  cases hlevels with
  | @intro top frame callers later hcallers hframe =>
      simp [Levels.inward, hscopes, hframe.scope]

/-- The scopes that frames refer to are the same, because callers and called flows share them. -/
theorem collectScopes (h : a.Beside b)
    (hlevels : a.levels.Unrolls library suspended b.levels) :
    a.collectScopes.Beside b.collectScopes := by
  have hlive : ∀ scope, (b.levels.frames.map Frame.scope).contains scope =
      (a.levels.frames.map Frame.scope).contains scope := by
    intro scope
    generalize a.levels = left at hlevels ⊢
    generalize b.levels = right at hlevels ⊢
    cases hlevels with
    | @intro top frame callers later hcallers hframe =>
        rw [Bool.eq_iff_iff, List.contains_iff_mem, List.contains_iff_mem]
        simp only [List.mem_map, Levels.mem_frames, List.mem_cons, List.not_mem_nil, or_false]
        constructor
        · rintro ⟨f, rfl | hsuspended, rfl⟩
          · exact ⟨top, .inl (.inl rfl), hframe.scope.symm⟩
          · exact ⟨f, .inr hsuspended, rfl⟩
        · rintro ⟨f, (rfl | hcaller) | hsuspended, rfl⟩
          · exact ⟨frame, .inl rfl, hframe.scope⟩
          · exact ⟨frame, .inl rfl, hframe.scope.trans (hcallers.scope hcaller).symm⟩
          · exact ⟨f, .inr hsuspended, rfl⟩
  refine ⟨h.id, h.userId, h.globals, h.outbox, fun scope => ?_⟩
  simp only [Session.collectScopes, Scopes.get?_retain, hlive scope, h.scopes scope]

theorem flush (h : a.Beside b) : a.flush.1.Beside b.flush.1 ∧ b.flush.2 = a.flush.2 := by
  unfold Session.flush
  rw [h.outbox]
  split
  · exact ⟨h, rfl⟩
  · exact ⟨⟨h.id, h.userId, h.globals, rfl, h.scopes⟩, rfl⟩

end Beside

theorem levels_flush (session : Session) : session.flush.1.levels = session.levels := by
  unfold flush
  split
  · rfl
  · rfl

namespace Abreast

variable {engine : Engine}

theorem varsByLevel (h : a.Abreast engine suspended b) : b.varsByLevel = a.varsByLevel := by
  cases h with
  | calling hbeside hlevels => exact hbeside.varsByLevel hlevels
  | idle h hidle => exact h.varsByLevel
  | resumed h hsteady => exact h.varsByLevel

/-- At the end of a turn both give the same response. -/
theorem finish (h : a.Abreast engine suspended b) :
    a.collectScopes.flush.1.Abreast engine suspended b.collectScopes.flush.1 ∧
      b.collectScopes.flush.2 = a.collectScopes.flush.2 := by
  cases h with
  | calling hbeside hlevels =>
      obtain ⟨hflushed, hresponse⟩ := (hbeside.collectScopes hlevels).flush
      refine ⟨.calling hflushed ?_, hresponse⟩
      rw [levels_flush, levels_flush]
      exact hlevels
  | idle h hidle =>
      obtain ⟨rename, h⟩ := h
      obtain ⟨hflushed, hresponse⟩ := h.collectScopes.flush
      exact ⟨.idle ⟨rename, hflushed⟩ (by rw [levels_flush]; exact hidle), hresponse⟩
  | resumed h hsteady =>
      obtain ⟨rename, h⟩ := h
      obtain ⟨hflushed, hresponse⟩ := h.collectScopes.flush
      exact ⟨.resumed ⟨rename, hflushed⟩ hsteady, hresponse⟩

end Abreast

end Session

/-! ## Runs -/

namespace Turn

variable {engine : Engine} {suspended : List Level} {a b : Turn}

theorem Beside.concluded (h : a.Beside b) :
    (a.concluded engine).session.Beside (b.concluded engine).session := by
  unfold Turn.concluded
  rw [h.session.outbox]
  split
  · exact h.session.tell _
  · exact h.session

/-- If no level has been left at the end, there was none to leave. -/
theorem Rejoins.nothing_waits {trail : List Turn} {final : Turn} (h : a.Rejoins suspended b)
    (hrun : Runs engine a trail final) (ha : a.session.InOrder)
    (hkept : final.session.levels.suspended = suspended) : suspended = [] := by
  cases hsuspended : suspended with
  | nil => rfl
  | cons level below =>
      -- the first round leaves the level, and no later one opens another
      have hleft : a.session.levels = ⟨[], level :: below⟩ := hsuspended ▸ h.left
      obtain ⟨next, hround, hnext⟩ : ∃ next, a.round engine = .onward next ∧
          next.session.levels.suspended = below := by
        have hmove := step_move engine ha
        generalize hstep : a.step engine = result at hmove
        cases hmove with
        | idled hempty => cases hleft.symm.trans hempty
        | resumed frame callers under hwaiting =>
            cases hleft.symm.trans hwaiting
            exact ⟨_, round_of_running hstep, rfl⟩
        | exhausted frame callers under hrunning => cases hleft.symm.trans hrunning
        | finished frame callers under hrunning => cases hleft.symm.trans hrunning
        | performed frame callers under step rest vars outcome hrunning =>
            cases hleft.symm.trans hrunning
      cases hrun with
      | last hended => cases hended.symm.trans hround
      | more honward hrest =>
          cases honward.symm.trans hround
          have hlength := (hrest.suspended (round_inOrder ha hround)).length_le
          rw [hkept, hsuspended, hnext, List.length_cons] at hlength
          omega

/-- What comes after both flows have ended is the same, because nothing is left of them.  Flows that
wait below have not gone on, or what happens outside is steady. -/
theorem Rejoins.runs {trail : List Turn} {final : Turn} (hrun : Runs engine a trail final)
    (h : a.Rejoins suspended b) (ha : a.session.InOrder) (hb : b.session.InOrder)
    (hlimits : ∀ round ∈ trail, round.SparesLimits engine)
    (hworld : engine.Steady ∨ final.session.levels.suspended = suspended) :
    ∃ others last, Runs engine b others last ∧
      final.session.Abreast engine suspended last.session := by
  have hmirrors := h.beside.session.mirrors (h.right.trans h.left.symm) ha hb
  rcases hworld with hsteady | hkept
  · obtain ⟨sooner, m, hsooner⟩ := hrun.withTaken h.beside.taken hlimits
    have hturns : (a.withTaken b.taken).Mirrors engine (fun scope => scope)
        { a.withTaken b.taken with session := b.session, journal := b.journal } :=
      .intro b.session b.journal hmirrors (hsteady a.journal b.journal h.beside.invoked)
    have hother : { a.withTaken b.taken with session := b.session, journal := b.journal } = b := by
      obtain ⟨session, input, taken, journal⟩ := b
      obtain rfl : input = a.input := h.beside.input
      rfl
    rw [hother] at hturns
    obtain ⟨others, last, hothers, rename, hfinal⟩ := hsooner.resembles ⟨_, hturns⟩ ha
    exact ⟨others, last, hothers, .resumed ⟨rename, hfinal.session⟩ hsteady⟩
  · obtain rfl := h.nothing_waits hrun ha hkept
    have hround : ∀ turn : Turn, turn.session.levels = ⟨[], []⟩ →
        turn.round engine = .ended (turn.concluded engine) := by
      intro turn hlevels
      simp [round, step, hlevels, Levels.top?]
    have hended := hround a h.left
    have hended' := hround b h.right
    obtain ⟨-, rfl⟩ := hrun.of_ended hended
    refine ⟨[b], _, .last hended', .idle ⟨_, h.beside.concluded.mirrors ?_
      (ended_inOrder ha hended) (ended_inOrder hb hended')⟩ ?_⟩
    · rw [(levels_concluded engine a).1, (levels_concluded engine b).1, h.left, h.right]
    · rw [(levels_concluded engine a).1, h.left]
      rfl

/-- A run with called flows has a counterpart without them. -/
theorem Runs.abreast {trail : List Turn} {final : Turn} (hrun : Runs engine a trail final)
    (h : a.Unrolls engine.library suspended b) (ha : a.session.InOrder) (hb : b.session.InOrder)
    (hlimits : ∀ round ∈ trail, round.SparesLimits engine)
    (hworld : engine.Steady ∨ final.session.levels.suspended = suspended) :
    ∃ others last, Runs engine b others last ∧
      final.session.Abreast engine suspended last.session := by
  induction hrun generalizing b with
  | last hended =>
      cases h.pace ha hb (hlimits _ List.mem_cons_self) with
      | aside next hround hnext => cases hended.symm.trans hround
      | onward next other hround hother hnext => cases hended.symm.trans hround
      | ended final last hround hother hfinal =>
          cases hended.symm.trans hround
          exact ⟨[b], last, .last hother, .calling hfinal.beside.session hfinal.levels⟩
  | more honward hrest ih =>
      have hlater := fun round hmem => hlimits round (List.mem_cons_of_mem _ hmem)
      have hordered := round_inOrder ha honward
      cases h.pace ha hb (hlimits _ List.mem_cons_self) with
      | aside next hround hnext =>
          cases honward.symm.trans hround
          exact ih hnext hordered hb hlater hworld
      | onward next other hround hother hnext =>
          cases honward.symm.trans hround
          have hordered' := round_inOrder hb hother
          rcases hnext with hunrolls | hrejoins
          · obtain ⟨others, last, hothers, hfinal⟩ :=
              ih hunrolls hordered hordered' hlater hworld
            exact ⟨b :: others, last, .more hother hothers, hfinal⟩
          · obtain ⟨others, last, hothers, hfinal⟩ :=
              hrejoins.runs hrest hordered hordered' hlater hworld
            exact ⟨b :: others, last, .more hother hothers, hfinal⟩
      | ended final last hround hother hfinal => cases honward.symm.trans hround

/-- Turns with and without called flows give the same response. -/
theorem Unrolls.run (h : a.Unrolls engine.library suspended b) (ha : a.session.InOrder)
    (hb : b.session.InOrder) (hlimits : a.WithinLimits engine)
    (hworld : engine.Steady ∨ (a.run engine).1.session.levels.suspended = suspended) :
    (a.run engine).1.session.Abreast engine suspended (b.run engine).1.session ∧
      (b.run engine).2 = (a.run engine).2 := by
  rw [(session_run engine a).1] at hworld
  obtain ⟨others, last, hothers, hfinal⟩ := (runs_drive engine a).abreast h ha hb hlimits hworld
  obtain ⟨-, rfl⟩ := runs_iff.1 hothers
  exact hfinal.finish

end Turn

/-! ## Conversations -/

namespace Engine

/-- The user says something that is no command and does not ask for a flow.  The words for switching
and staying are commands only while a flow waits for confirmation. -/
structure IsPlain (engine : Engine) (session : Session) (x : Exchange) : Prop where
  role : x.entry.role = .user
  command : ∀ command, Command.ofInput? x.entry.content = some command →
    command = .switch ∨ command = .stay
  intent : ∀ intent, (Intent.classify engine x.journal x.entry.content
    (session.levels.top?.map Frame.flowName)).2 = some intent → intent.strength = .none

/-- No round of the exchange reaches a limit of the settings. -/
def WithinLimits (engine : Engine) (session : Session) (x : Exchange) : Prop :=
  ∀ round ∈ engine.trail session x, round.SparesLimits engine

instance (engine : Engine) (session : Session) (x : Exchange) :
    Decidable (engine.WithinLimits session x) :=
  inferInstanceAs (Decidable (∀ round ∈ engine.trail session x, round.SparesLimits engine))

/-- The user says the same in both conversations, which is plain, the same tools were invoked
before, and no limit is reached in the first conversation.  Flows that wait on the levels below have
not gone on, or what happens outside is steady. -/
structure PlainTurn (engine : Engine) (suspended : List Level) (a b : Session) (x y : Exchange) :
    Prop where
  entry : y.entry = x.entry
  invoked : y.journal.invoked = x.journal.invoked
  left : engine.IsPlain a x
  right : engine.IsPlain b y
  limits : engine.WithinLimits a x
  world : engine.Steady ∨ (engine.next a x).levels.suspended = suspended

/-- Both conversations go on with turns that are plain. -/
def Apace (engine : Engine) (suspended : List Level) :
    Session → Session → List (Exchange × Exchange) → Prop
  | _, _, [] => True
  | a, b, (x, y) :: turns =>
    engine.PlainTurn suspended a b x y ∧
      Apace engine suspended (engine.next a x) (engine.next b y) turns

/-- On every turn both conversations give the same response and have the same variables after it. -/
def Agree (engine : Engine) : Session → Session → List (Exchange × Exchange) → Prop
  | _, _, [] => True
  | a, b, (x, y) :: turns =>
    engine.response? b y = engine.response? a x ∧
      (engine.next b y).varsByLevel = (engine.next a x).varsByLevel ∧
      Agree engine (engine.next a x) (engine.next b y) turns

variable {engine : Engine} {suspended : List Level} {session a b : Session} {x y : Exchange}

/-- A plain input leaves the flow in progress as it is. -/
theorem reactionTo_plain {intent : Option Intent} {current : String}
    (h : ∀ i, intent = some i → i.strength = .none) :
    Turn.reactionTo engine current intent = .goOn := by
  cases intent with
  | none => rfl
  | some i =>
      obtain ⟨target, strength⟩ := i
      obtain rfl : strength = .none := h _ rfl
      rfl

theorem invoked_classify (engine : Engine) (journal : Journal) (input : String)
    (current : Option String) :
    (Intent.classify engine journal input current).1.invoked = journal.invoked := by
  unfold Intent.classify
  have hasked : (engine.ask journal ⟨Intent.instruction engine.library current, input⟩).1.invoked =
      journal.invoked := rfl
  generalize engine.ask journal _ = answer at hasked ⊢
  obtain ⟨after, reply⟩ := answer
  cases reply with
  | ok reply => exact hasked
  | error reason => exact hasked

theorem react_plain (turn : Turn) (frame : Frame) (hnone : frame.pendingInterruption = none)
    {input : String} (hcommand : ∀ command, Command.ofInput? input = some command →
      command = .switch ∨ command = .stay)
    (hintent : ∀ intent, (Intent.classify engine turn.journal input (some frame.flowName)).2 =
      some intent → intent.strength = .none) :
    ∃ journal, turn.react engine frame input = ({ turn with journal := journal }, .goOn) ∧
      journal.invoked = turn.journal.invoked := by
  have hconsider : turn.consider engine input frame.flowName =
      ({ turn with
          journal := (Intent.classify engine turn.journal input (some frame.flowName)).1 },
        .goOn) := by
    unfold Turn.consider
    simp only [reactionTo_plain hintent]
  refine ⟨(Intent.classify engine turn.journal input (some frame.flowName)).1, ?_,
    invoked_classify engine turn.journal input (some frame.flowName)⟩
  unfold Turn.react
  rw [hnone]
  cases hfound : Command.ofInput? input with
  | none => exact hconsider
  | some command =>
      rcases hcommand command hfound with rfl | rfl
      · exact hconsider
      · exact hconsider

theorem hear_of_frame {frame : Frame} {callers : Level}
    (hlevels : session.levels = ⟨frame :: callers, suspended⟩) (entry : Entry) :
    session.hear entry =
      { session with
        levels := ⟨frame.record entry :: callers, suspended⟩
        lastEntry := some entry } := by
  simp [Session.hear, Session.note, hlevels, Levels.top?, Levels.modifyTop]

/-- A turn with a plain input runs, if a flow is in progress that waits for no confirmation. -/
theorem opening_plain {frame : Frame} {callers : Level}
    (hlevels : session.levels = ⟨frame :: callers, suspended⟩)
    (hnone : frame.pendingInterruption = none) (hplain : engine.IsPlain session x) :
    ∃ journal, engine.opening x.journal session x.entry =
        .running { heard session x with journal := journal } ∧
      journal.invoked = x.journal.invoked := by
  have htop : (session.hear x.entry).levels.top? = some (frame.record x.entry) := by
    rw [hear_of_frame hlevels]
    rfl
  have hintent := hplain.intent
  rw [hlevels] at hintent
  obtain ⟨journal, hreact, hinvoked⟩ := react_plain (heard session x) (frame.record x.entry) hnone
    hplain.command hintent
  refine ⟨journal, ?_, hinvoked⟩
  simp only [opening, htop]
  rw [Turn.handleInput_eq]
  have hsame : Turn.start (session.hear x.entry) x.journal (some x.entry.content) =
      heard session x := rfl
  rw [hsame, hreact]
  rfl

/-- A plain input is not answered while no flow is in progress. -/
theorem opening_idle (hlevels : session.levels = .empty) (hplain : engine.IsPlain session x) :
    ∃ journal, engine.opening x.journal session x.entry =
      .answered { heard session x with journal := journal } none := by
  have hintent : ∀ intent, (Intent.classify engine x.journal x.entry.content none).2 =
      some intent → intent.strength = .none := by
    have hcurrent := hplain.intent
    rwa [hlevels] at hcurrent
  obtain ⟨hopening, -⟩ := opening_of_nil engine x hlevels
  refine ⟨(Intent.classify engine x.journal x.entry.content none).1, ?_⟩
  rw [hopening]
  unfold Turn.welcome
  have hjournal : (heard session x).journal = x.journal := rfl
  rw [hjournal]
  generalize Intent.classify engine x.journal x.entry.content none = classified at hintent ⊢
  obtain ⟨journal, intent⟩ := classified
  cases intent with
  | none => rfl
  | some intent =>
      obtain ⟨flow, strength⟩ := intent
      have hnone : strength = .none := hintent ⟨flow, strength⟩ rfl
      subst hnone
      rfl

theorem ResemblingUpdate.response (h : ResemblingUpdate engine
    (engine.update x.journal a x.entry) (engine.update y.journal b y.entry)) :
    engine.response? b y = engine.response? a x := by
  unfold Engine.response?
  generalize engine.update x.journal a x.entry = left at h ⊢
  generalize engine.update y.journal b y.entry = right at h ⊢
  cases h with
  | refused error hjournal => rfl
  | taken response hjournal hsessions => rfl

/-- While the flows are in progress, a plain input makes both of them go on. -/
theorem calling_exchange (hbeside : a.Beside b)
    (hlevels : a.levels.Unrolls engine.library suspended b.levels) (ha : a.InOrder)
    (hb : b.InOrder) (hplain : engine.PlainTurn suspended a b x y) :
    (engine.next a x).Abreast engine suspended (engine.next b y) ∧
      engine.response? b y = engine.response? a x := by
  generalize hla : a.levels = left at hlevels
  generalize hlb : b.levels = right at hlevels
  cases hlevels with
  | @intro top frame callers later hcallers hframe =>
      obtain ⟨journal, hopening, hinvoked⟩ := opening_plain hla hframe.undisturbed.1 hplain.left
      obtain ⟨past, hopening', hinvoked'⟩ := opening_plain hlb hframe.undisturbed.2 hplain.right
      have hordered := opening_inOrder engine ha hplain.left.role
      have hordered' := opening_inOrder engine hb hplain.right.role
      rw [hopening] at hordered
      rw [hopening'] at hordered'
      obtain ⟨hnext, hresponse, htrail⟩ := ran_of_running ha hplain.left.role hopening
      obtain ⟨hnext', hresponse', -⟩ := ran_of_running hb hplain.right.role hopening'
      have hturns : ({ heard a x with journal := journal } : Turn).Unrolls engine.library suspended
          { heard b y with journal := past } := by
        refine ⟨⟨?_, ?_, Nat.le_refl _, ?_⟩, ?_⟩
        · simp only [heard, Turn.start, hear_of_frame hla, hear_of_frame hlb]
          exact ⟨hbeside.id, hbeside.userId, hbeside.globals, hbeside.outbox, hbeside.scopes⟩
        · exact congrArg (fun entry : Entry => some entry.content) hplain.entry
        · exact hinvoked'.trans (hplain.invoked.trans hinvoked.symm)
        · simp only [heard, Turn.start, hear_of_frame hla, hear_of_frame hlb]
          exact .intro hcallers ⟨hframe.steps, hframe.scope, hframe.pending, hframe.waiting,
            hframe.undisturbed, hframe.fresh⟩
      have hwithin : ({ heard a x with journal := journal } : Turn).WithinLimits engine := by
        unfold Turn.WithinLimits
        rw [← htrail]
        exact hplain.limits
      have hworld := hplain.world
      rw [hnext] at hworld
      rw [hnext, hnext', hresponse, hresponse']
      exact hturns.run hordered hordered' hwithin hworld

/-- While no flow is in progress, a plain input changes nothing but what was heard. -/
theorem idle_exchange (h : a.Resembles b) (hidle : a.levels = .empty) (ha : a.InOrder)
    (hb : b.InOrder) (hplain : engine.PlainTurn suspended a b x y) :
    (engine.next a x).Abreast engine suspended (engine.next b y) ∧
      engine.response? b y = engine.response? a x := by
  obtain ⟨rename, h⟩ := h
  have hidle' : b.levels = .empty := by
    obtain ⟨scopes, lastEntry, history, h⟩ := h
    show a.levels.renamed rename = .empty
    rw [hidle]
    rfl
  obtain ⟨journal, hopening⟩ := opening_idle hidle hplain.left
  obtain ⟨past, hopening'⟩ := opening_idle hidle' hplain.right
  have hupdate := update_of_user ha hplain.left.role hopening
  have hupdate' := update_of_user hb hplain.right.role hopening'
  have hnext : engine.next a x = a.hear x.entry := by
    simp only [next, hupdate, Opening.finish]
    rfl
  have hnext' : engine.next b y = b.hear x.entry := by
    simp only [next, hupdate', Opening.finish]
    rw [← hplain.entry]
    rfl
  have hresponse : engine.response? a x = none := by
    simp only [response?, hupdate, Opening.finish]
  have hresponse' : engine.response? b y = none := by
    simp only [response?, hupdate', Opening.finish]
  rw [hnext, hnext', hresponse, hresponse']
  refine ⟨.idle ⟨rename, h.hear x.entry⟩ ?_, rfl⟩
  exact (Session.touched_hear a x.entry).levels_eq_of_nil hidle

/-- A plain input has the same response in both conversations. -/
theorem abreast_exchange (h : a.Abreast engine suspended b) (ha : a.InOrder) (hb : b.InOrder)
    (hplain : engine.PlainTurn suspended a b x y) :
    (engine.next a x).Abreast engine suspended (engine.next b y) ∧
      engine.response? b y = engine.response? a x := by
  cases h with
  | calling hbeside hlevels => exact calling_exchange hbeside hlevels ha hb hplain
  | idle h hidle => exact idle_exchange h hidle ha hb hplain
  | resumed h hsteady =>
      have hupdate := update_resembles ha hb h ⟨hplain.entry, hsteady _ _ hplain.invoked⟩
      exact ⟨.resumed (hupdate.next h) hsteady, hupdate.response⟩

/-- The conversations agree as long as they go on with the same plain inputs. -/
theorem abreast_agree {turns : List (Exchange × Exchange)} {a b : Session}
    (h : a.Abreast engine suspended b) (ha : a.InOrder) (hb : b.InOrder)
    (hturns : engine.Apace suspended a b turns) :
    engine.Agree a b turns := by
  induction turns generalizing a b with
  | nil => trivial
  | cons turn turns ih =>
      obtain ⟨x, y⟩ := turn
      obtain ⟨hplain, hlater⟩ := hturns
      obtain ⟨hnext, hresponse⟩ := abreast_exchange h ha hb hplain
      exact ⟨hresponse, hnext.varsByLevel,
        ih hnext (next_inOrder ha x) (next_inOrder hb y) hlater⟩

/-- A flow and the same flow with calls inlined, started in the same session. -/
theorem activate_unrolls {turn : Turn} {flow inlined : Definition}
    (hlevels : turn.session.levels = ⟨[], suspended⟩)
    (hsteps : Step.Inlined engine.library flow.steps inlined.steps)
    (hvars : inlined.vars = flow.vars) (initiator : String) {past : Journal}
    (hinvoked : past.invoked = turn.journal.invoked) :
    (turn.activate flow initiator).Unrolls engine.library suspended
      ({ turn with journal := past }.activate inlined initiator) := by
  have hscopes : Table.overlay inlined.vars turn.session.globals =
      Table.overlay flow.vars turn.session.globals := by rw [hvars]
  refine ⟨⟨⟨rfl, rfl, rfl, rfl, ?_⟩, rfl, Nat.le_refl _, hinvoked⟩, ?_⟩
  · intro scope
    simp only [Turn.activate, Turn.withSession, hscopes]
  · simp only [Turn.activate, Turn.withSession, hlevels, Levels.push]
    refine .intro .nil ⟨⟨inlined.steps, hsteps, ?_⟩, rfl, rfl, ?_, ⟨rfl, rfl⟩, rfl, rfl⟩
    · simp [Frame.start]
    · rintro target ⟨⟩

/-- Calling a sub-flow equals inlining it.  A flow that calls another one, which declares no
variables, and the flow in which the steps of the called one stand in the place of the call are
started in the same session.  All steps are textual, and their texts and conditions mention neither
the name of the flow nor the time and have no placeholders inside others.  As long as no input is a
command or taken for an intent and no limit is reached, both flows give the same response on every
turn, the first one among them, and leave the same variables.  As soon as flows that wait on the
levels below go on after the end of these, this takes a world outside that is steady. -/
theorem call_equals_inlining {turn : Turn} (horder : turn.session.InOrder)
    (hlevels : turn.session.levels = ⟨[], suspended⟩)
    {flow inlined called : Definition} {id key : String} {before after : List Step}
    (hcalled : engine.library.get? key = some called) (hnone : called.vars = [])
    (hflow : flow.steps = before ++ .callFlow id key .call :: after)
    (hinlined : inlined.steps = before ++ called.steps ++ after)
    (hvars : inlined.vars = flow.vars)
    (htexts : ∀ step ∈ before ++ called.steps ++ after, step.Textual Template.Plain)
    (initiator : String) {past : Journal} (hinvoked : past.invoked = turn.journal.invoked)
    (hlimits : (turn.activate flow initiator).WithinLimits engine)
    (hworld : engine.Steady ∨
      ((turn.activate flow initiator).run engine).1.session.levels.suspended = suspended)
    {turns : List (Exchange × Exchange)}
    (hturns : engine.Apace suspended ((turn.activate flow initiator).run engine).1.session
      (({ turn with journal := past }.activate inlined initiator).run engine).1.session turns) :
    (({ turn with journal := past }.activate inlined initiator).run engine).2 =
        ((turn.activate flow initiator).run engine).2 ∧
      (({ turn with journal := past }.activate inlined initiator).run
          engine).1.session.varsByLevel =
        ((turn.activate flow initiator).run engine).1.session.varsByLevel ∧
      engine.Agree ((turn.activate flow initiator).run engine).1.session
        (({ turn with journal := past }.activate inlined initiator).run engine).1.session
        turns := by
  have hsteps : Step.Inlined engine.library flow.steps inlined.steps := by
    rw [hflow, hinlined]
    exact .call hcalled hnone htexts
  have hunrolls := activate_unrolls hlevels hsteps hvars initiator hinvoked
  have hordered := Turn.activate_inOrder horder hlevels flow initiator
  have hordered' : ({ turn with journal := past }.activate inlined initiator).session.InOrder :=
    Turn.activate_inOrder horder hlevels inlined initiator
  obtain ⟨habreast, hresponse⟩ := hunrolls.run hordered hordered' hlimits hworld
  exact ⟨hresponse, habreast.varsByLevel, abreast_agree habreast
    (Turn.run_inOrder hordered) (Turn.run_inOrder hordered') hturns⟩

end Engine

namespace Kiosk

/-- A question for a word. -/
def wordQuestion : Step :=
  .ask "ask" (.plain "Which word?") (some "word")

/-- A flow that asks for a word and goes on with the given steps. -/
def wordFlow (later : List Step) : Definition :=
  { flow "Shop" "" "" with steps := wordQuestion :: later }

/-- A flow to be called. -/
def subFlow (steps : List Step) : Definition :=
  { flow "Echo" "" "" with steps := steps }

/-- The call of that flow. -/
def subCall : Step :=
  .callFlow "call" "Echo" .call

/-- An engine that knows the flow to be called and a flow that calls it. -/
def stand (steps later : List Step) : Engine :=
  { engine with library := stocked [wordFlow (subCall :: later), subFlow steps] }

theorem stand_steady (steps later : List Step) : (stand steps later).Steady :=
  fun _ _ _ => ⟨fun _ => rfl, fun _ => rfl, fun _ => rfl⟩

/-- A turn of a guest who has not said anything. -/
def arrival (engine : Engine) : Turn :=
  .start (engine.startSession "guest" "stand") .empty none

/-- The session of a guest for whom a flow was started. -/
def visit (engine : Engine) (flow : Definition) : Session :=
  (((arrival engine).activate flow "user").run engine).1.session

/-- Words that are no command and that the model takes for no flow make a plain turn. -/
theorem plainTurn_guest {steps later : List Step} {a b : Session} {text : String}
    (hcommand : Command.ofInput? text = none)
    (hleft : (Intent.classify (stand steps later) .empty text
      (a.levels.top?.map Frame.flowName)).2.isNone = true)
    (hright : (Intent.classify (stand steps later) .empty text
      (b.levels.top?.map Frame.flowName)).2.isNone = true)
    (hlimits : (stand steps later).WithinLimits a (guest text)) :
    (stand steps later).PlainTurn [] a b (guest text) (guest text) where
  entry := rfl
  invoked := rfl
  left :=
    { role := rfl
      command := fun _ hfound => nomatch hcommand.symm.trans hfound
      intent := fun _ hfound => nomatch (Option.isNone_iff_eq_none.1 hleft).symm.trans hfound }
  right :=
    { role := rfl
      command := fun _ hfound => nomatch hcommand.symm.trans hfound
      intent := fun _ hfound => nomatch (Option.isNone_iff_eq_none.1 hright).symm.trans hfound }
  limits := hlimits
  world := .inl (stand_steady steps later)

/-- Steps that ask for a receiver and write a label. -/
def labelSteps : List Step :=
  [.ask "receiver" (.plain "Who shall get the \x7b\x7bword\x7d\x7d?") (some "receiver"),
    .say "label" (.plain "\x7b\x7bword\x7d\x7d for \x7b\x7breceiver\x7d\x7d")]

/-- A step with thanks. -/
def thanks : Step :=
  .say "thanks" (.plain "Thanks")

theorem labelSteps_textual : ∀ step ∈ [wordQuestion] ++ labelSteps ++ [thanks],
    step.Textual Template.Plain := by
  intro step hstep
  simp only [labelSteps, List.cons_append, List.nil_append, List.mem_cons, List.not_mem_nil,
    or_false] at hstep
  rcases hstep with rfl | rfl | rfl | rfl
  · exact .ask fun _ => (by decide +kernel : Template.Plain "Which word?")
  · exact .ask fun _ =>
      (by decide +kernel : Template.Plain "Who shall get the \x7b\x7bword\x7d\x7d?")
  · exact .say fun _ =>
      (by decide +kernel : Template.Plain "\x7b\x7bword\x7d\x7d for \x7b\x7breceiver\x7d\x7d")
  · exact .say fun _ => (by decide +kernel : Template.Plain "Thanks")

/-- A guest who is asked by the called flow as well gets the same label from both flows. -/
theorem label_inlined :
    (stand labelSteps [thanks]).Agree
        (visit (stand labelSteps [thanks]) (wordFlow [subCall, thanks]))
        (visit (stand labelSteps [thanks]) (wordFlow (labelSteps ++ [thanks])))
        [(guest "Rose", guest "Rose"), (guest "Ann", guest "Ann")] ∧
      (stand labelSteps [thanks]).response?
        ((stand labelSteps [thanks]).next
          (visit (stand labelSteps [thanks]) (wordFlow [subCall, thanks])) (guest "Rose"))
        (guest "Ann") = some "Rose for Ann\n\nThanks" := by
  have hturns : (stand labelSteps [thanks]).Apace []
      (visit (stand labelSteps [thanks]) (wordFlow [subCall, thanks]))
      (visit (stand labelSteps [thanks]) (wordFlow (labelSteps ++ [thanks])))
      [(guest "Rose", guest "Rose"), (guest "Ann", guest "Ann")] := by
    refine ⟨plainTurn_guest ?_ ?_ ?_ ?_, plainTurn_guest ?_ ?_ ?_ ?_, trivial⟩
    all_goals decide +kernel
  have hlevels : (arrival (stand labelSteps [thanks])).session.levels = ⟨[], []⟩ := rfl
  have hcalled : (stand labelSteps [thanks]).library.get? "Echo" = some (subFlow labelSteps) := rfl
  have hflow : (wordFlow [subCall, thanks]).steps = [wordQuestion] ++ subCall :: [thanks] := rfl
  have hinlined : (wordFlow (labelSteps ++ [thanks])).steps =
      [wordQuestion] ++ (subFlow labelSteps).steps ++ [thanks] := rfl
  have hlimits : ((arrival (stand labelSteps [thanks])).activate (wordFlow [subCall, thanks])
      "user").WithinLimits (stand labelSteps [thanks]) := by decide +kernel
  obtain ⟨-, -, hagree⟩ := Engine.call_equals_inlining
    (Engine.Reachable.start "guest" "stand").inOrder hlevels hcalled rfl hflow hinlined rfl
    labelSteps_textual "user" rfl hlimits (.inl (stand_steady labelSteps [thanks])) hturns
  exact ⟨hagree, by decide +kernel⟩

/-- A step that says what a placeholder holds whose source is the value of a variable. -/
def echoSteps : List Step :=
  [.say "echo" (.plain "\x7b\x7b \x7b\x7bword\x7d\x7d \x7d\x7d")]

theorem echoSteps_textual : ∀ step ∈ [wordQuestion] ++ echoSteps ++ [],
    step.Textual fun text => Text.Oblivious text.toList := by
  intro step hstep
  simp only [echoSteps, List.cons_append, List.nil_append, List.append_nil, List.mem_cons,
    List.not_mem_nil, or_false] at hstep
  rcases hstep with rfl | rfl
  · exact .ask fun _ => (by decide +kernel : Text.Oblivious "Which word?".toList)
  · exact .say fun _ =>
      (by decide +kernel : Text.Oblivious "\x7b\x7b \x7b\x7bword\x7d\x7d \x7d\x7d".toList)

/-- A text that mentions neither name can still show the name of its flow, if the user names it: a
guest who says so learns from the response that a flow was called. -/
theorem echo_not_inlined :
    (stand echoSteps []).library.get? "Echo" = some (subFlow echoSteps) ∧
      (subFlow echoSteps).vars = [] ∧
      (wordFlow [subCall]).steps = [wordQuestion] ++ subCall :: [] ∧
      (wordFlow echoSteps).steps = [wordQuestion] ++ (subFlow echoSteps).steps ++ [] ∧
      (wordFlow echoSteps).vars = (wordFlow [subCall]).vars ∧
      (∀ step ∈ [wordQuestion] ++ echoSteps ++ [],
        step.Textual fun text => Text.Oblivious text.toList) ∧
      ((arrival (stand echoSteps [])).activate (wordFlow [subCall]) "user").WithinLimits
        (stand echoSteps []) ∧
      (stand echoSteps []).Apace [] (visit (stand echoSteps []) (wordFlow [subCall]))
        (visit (stand echoSteps []) (wordFlow echoSteps))
        [(guest "flowName", guest "flowName")] ∧
      (stand echoSteps []).response? (visit (stand echoSteps []) (wordFlow [subCall]))
        (guest "flowName") = some "Echo" ∧
      (stand echoSteps []).response? (visit (stand echoSteps []) (wordFlow echoSteps))
        (guest "flowName") = some "Shop" := by
  refine ⟨rfl, rfl, rfl, rfl, rfl, echoSteps_textual, ?_,
    ⟨plainTurn_guest ?_ ?_ ?_ ?_, trivial⟩, ?_, ?_⟩
  all_goals decide +kernel

end Kiosk

end Parley
