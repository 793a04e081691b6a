import Parley.Proofs.Openings

/-!
# Conversations

A conversation starts with a new session and goes on with one entry after another.
What an entry does is one of four things: it is refused, it is noted, it is
answered at once, or it makes a turn run.  Every session that an engine leads is
in order, and so is the session of every turn at the beginning of every round.
-/

set_option autoImplicit false

namespace Parley

/-- An entry of a conversation, and what had happened outside when it came. -/
structure Exchange where
  journal : Journal
  entry : Entry

namespace Engine

/-- The session after an exchange, which is the one before if the entry is refused. -/
def next (engine : Engine) (session : Session) (exchange : Exchange) : Session :=
  match (engine.update exchange.journal session exchange.entry).2 with
  | .ok (_, session) => session
  | .error _ => session

/-- The response of an exchange. -/
def response? (engine : Engine) (session : Session) (exchange : Exchange) : Option String :=
  match (engine.update exchange.journal session exchange.entry).2 with
  | .ok (response, _) => response
  | .error _ => none

/-- The session after some exchanges. -/
def after (engine : Engine) (session : Session) (exchanges : List Exchange) : Session :=
  exchanges.foldl engine.next session

/-- The sessions that an engine leads: new ones, and what exchanges make of them. -/
inductive Reachable (engine : Engine) : Session → Prop where
  | start (userId id : String) : Reachable engine (engine.startSession userId id)
  | next {session : Session} (hsession : Reachable engine session) (exchange : Exchange) :
      Reachable engine (engine.next session exchange)

/-- The beginning of the turn of an exchange, if there is one. -/
def opening? (engine : Engine) (session : Session) (exchange : Exchange) : Option Opening :=
  if exchange.entry.role = .user ∧ session.danglingFrame? = none then
    some (engine.opening exchange.journal session exchange.entry)
  else none

/-- The turns in which the rounds of an exchange begin. -/
def trail (engine : Engine) (session : Session) (exchange : Exchange) : List Turn :=
  match engine.opening? session exchange with
  | some (.running turn) => turn.trail engine
  | _ => []

/-- What an exchange does: the session after it, its response and the rounds that it makes run. -/
inductive Course (engine : Engine) (session : Session) (exchange : Exchange) :
    Session → Option String → List Turn → Prop where
  /-- The entry is refused. -/
  | refused : Course engine session exchange session none []
  /-- The entry needs no response. -/
  | noted (hrole : exchange.entry.role = .assistant) :
      Course engine session exchange (session.note exchange.entry) none []
  /-- The entry is answered, and no step runs. -/
  | answered (turn : Turn) (response : Option String) (hrole : exchange.entry.role = .user)
      (hopening : engine.opening exchange.journal session exchange.entry =
        .answered turn response) :
      Course engine session exchange turn.session response []
  /-- The entry makes a turn run. -/
  | ran (turn : Turn) (hrole : exchange.entry.role = .user)
      (hopening : engine.opening exchange.journal session exchange.entry = .running turn) :
      Course engine session exchange (turn.run engine).1.session (turn.run engine).2
        (turn.trail engine)

theorem course (engine : Engine) (session : Session) (exchange : Exchange) :
    Course engine session exchange (engine.next session exchange)
      (engine.response? session exchange) (engine.trail session exchange) := by
  cases hrole : exchange.entry.role with
  | user =>
      cases hdangling : session.danglingFrame? with
      | some frame =>
          simpa [next, response?, trail, opening?, update, hrole, hdangling] using Course.refused
      | none =>
          cases hopening : engine.opening exchange.journal session exchange.entry with
          | answered turn response =>
              simpa [next, response?, trail, opening?, update, hrole, hdangling, respond, hopening,
                Opening.finish] using Course.answered turn response hrole hopening
          | running turn =>
              simpa [next, response?, trail, opening?, update, hrole, hdangling, respond, hopening,
                Opening.finish] using Course.ran turn hrole hopening
  | assistant => simpa [next, response?, trail, opening?, update, hrole] using Course.noted hrole
  | tool => simpa [next, response?, trail, opening?, update, hrole] using Course.refused
  | system => simpa [next, response?, trail, opening?, update, hrole] using Course.refused

end Engine

/-! ## How the turn of an exchange begins -/

namespace Engine

variable {engine : Engine} {session : Session} {exchange : Exchange}

/-- The turn with an entry that has been heard and about which nothing has been done yet. -/
def heard (session : Session) (exchange : Exchange) : Turn :=
  .start (session.hear exchange.entry) exchange.journal (some exchange.entry.content)

/-- The reaction of the flow in progress to an exchange, if there is one. -/
def reaction? (engine : Engine) (session : Session) (exchange : Exchange) : Option Reaction :=
  if exchange.entry.role = .user then
    (session.hear exchange.entry).levels.top?.map fun frame =>
      ((heard session exchange).react engine frame exchange.entry.content).2
  else none

/-- With a frame that runs, the turn begins as the reaction demands, in a session that has only been
touched. -/
theorem opening_of_frame (engine : Engine) {frame : Frame} {callers : Level}
    {suspended : List Level} (hrole : exchange.entry.role = .user)
    (hlevels : session.levels = ⟨frame :: callers, suspended⟩) :
    ∃ (turn : Turn) (named : Frame) (reaction : Reaction),
      engine.reaction? session exchange = some reaction ∧
      engine.opening exchange.journal session exchange.entry = turn.carryOut engine named reaction ∧
      session.Touched turn.session ∧ turn.input = some exchange.entry.content ∧ turn.taken = 0 := by
  have htouched := Session.touched_hear session exchange.entry
  obtain ⟨named, -, hheard⟩ := htouched.levels_eq hlevels
  have htop : (session.hear exchange.entry).levels.top? = some named := by rw [hheard]; rfl
  obtain ⟨hreact, hinput, htaken⟩ :=
    Turn.react_touched engine (heard session exchange) named exchange.entry.content
  refine ⟨((heard session exchange).react engine named exchange.entry.content).1, named,
    ((heard session exchange).react engine named exchange.entry.content).2, ?_, ?_,
    htouched.trans hreact, hinput, htaken⟩
  · simp [reaction?, hrole, htop]
  · simp only [opening, htop]
    exact Turn.handleInput_eq engine _ named _

/-- Without a frame that runs, the turn begins with a welcome. -/
theorem opening_of_nil (engine : Engine) (exchange : Exchange) {suspended : List Level}
    (hlevels : session.levels = ⟨[], suspended⟩) :
    engine.opening exchange.journal session exchange.entry =
        (heard session exchange).welcome engine exchange.entry.content ∧
      (heard session exchange).session.levels = ⟨[], suspended⟩ := by
  have hheard := (Session.touched_hear session exchange.entry).levels_eq_of_nil hlevels
  refine ⟨?_, hheard⟩
  have htop : (session.hear exchange.entry).levels.top? = none := by rw [hheard]; rfl
  simp only [opening, htop]
  rfl

theorem opening_inOrder (engine : Engine) (horder : session.InOrder)
    (hrole : exchange.entry.role = .user) :
    (engine.opening exchange.journal session exchange.entry).turn.session.InOrder := by
  rcases hlevels : session.levels with ⟨current, suspended⟩
  cases current with
  | nil =>
      obtain ⟨hopening, hheard⟩ := opening_of_nil engine exchange hlevels
      rw [hopening]
      exact Turn.welcome_inOrder ((Session.touched_hear _ _).inOrder horder) hheard engine _
  | cons frame callers =>
      obtain ⟨turn, named, reaction, -, hopening, htouched, -⟩ :=
        opening_of_frame engine hrole hlevels
      obtain ⟨frame', -, hturn⟩ := htouched.levels_eq hlevels
      rw [hopening]
      exact Turn.carryOut_inOrder (htouched.inOrder horder) hturn engine named reaction

/-- An entry that is answered at once only touches the session. -/
theorem opening_answered {turn : Turn} {response : Option String}
    (hrole : exchange.entry.role = .user)
    (h : engine.opening exchange.journal session exchange.entry = .answered turn response) :
    session.Touched turn.session := by
  rcases hlevels : session.levels with ⟨current, suspended⟩
  cases current with
  | nil =>
      obtain ⟨hopening, -⟩ := opening_of_nil engine exchange hlevels
      rw [Turn.session_of_welcome (hopening.symm.trans h)]
      exact Session.touched_hear session exchange.entry
  | cons frame callers =>
      obtain ⟨opened, named, reaction, -, hopening, htouched, -⟩ :=
        opening_of_frame engine hrole hlevels
      obtain ⟨frame', -, hopened⟩ := htouched.levels_eq hlevels
      exact htouched.trans (Turn.touched_of_answered hopened (hopening.symm.trans h))

/-- A turn that runs begins with the whole budget, and either without input or because the flow in
progress goes on with the input. -/
theorem opening_running {turn : Turn} (hrole : exchange.entry.role = .user)
    (h : engine.opening exchange.journal session exchange.entry = .running turn) :
    turn.taken = 0 ∧ (turn.input = none ∨ engine.reaction? session exchange = some .goOn ∧
      session.Touched turn.session ∧ turn.input = some exchange.entry.content) := by
  rcases hlevels : session.levels with ⟨current, suspended⟩
  cases current with
  | nil =>
      obtain ⟨hopening, -⟩ := opening_of_nil engine exchange hlevels
      rw [hopening] at h
      unfold Turn.welcome at h
      simp only at h
      split at h
      · cases h
      · cases h
      · cases h
        exact ⟨rfl, .inl rfl⟩
  | cons frame callers =>
      obtain ⟨opened, named, reaction, hreaction, hopening, htouched, hinput, htaken⟩ :=
        opening_of_frame engine hrole hlevels
      obtain ⟨frame', -, hopened⟩ := htouched.levels_eq hlevels
      rw [hopening] at h
      cases reaction with
      | cancel =>
          obtain ⟨after, hafter, -, -, hnone, hsame⟩ := Turn.cancel_running hopened engine
          simp only [Turn.carryOut, hafter, Opening.running.injEq] at h
          subst h
          exact ⟨hsame.trans htaken, .inl hnone⟩
      | help | status | confirm flow => cases h
      | stay | interrupt flow =>
          cases h
          exact ⟨htaken, .inl rfl⟩
      | goOn =>
          cases h
          exact ⟨htaken, .inr ⟨hreaction, htouched, hinput⟩⟩

/-- If the flow in progress goes on with the input, a turn runs in a session that has only been
touched. -/
theorem opening_of_goOn (engine : Engine) (hrole : exchange.entry.role = .user)
    (hreaction : engine.reaction? session exchange = some .goOn) :
    ∃ turn, engine.opening exchange.journal session exchange.entry = .running turn ∧
      session.Touched turn.session ∧ turn.input = some exchange.entry.content ∧ turn.taken = 0 := by
  rcases hlevels : session.levels with ⟨current, suspended⟩
  cases current with
  | nil =>
      have hheard := (Session.touched_hear session exchange.entry).levels_eq_of_nil hlevels
      simp [reaction?, hheard, Levels.top?] at hreaction
  | cons frame callers =>
      obtain ⟨turn, named, reaction, hsame, hopening, htouched, hinput, htaken⟩ :=
        opening_of_frame engine hrole hlevels
      rw [hsame] at hreaction
      cases hreaction
      exact ⟨turn, hopening, htouched, hinput, htaken⟩

/-- An exchange only touches the session, or makes a turn run. -/
theorem next_cases (engine : Engine) (session : Session) (exchange : Exchange) :
    session.Touched (engine.next session exchange) ∨
      ∃ turn, exchange.entry.role = .user ∧
        engine.opening exchange.journal session exchange.entry = .running turn ∧
        engine.next session exchange = (turn.run engine).1.session ∧
        engine.response? session exchange = (turn.run engine).2 ∧
        engine.trail session exchange = turn.trail engine := by
  have hcourse := engine.course session exchange
  generalize engine.next session exchange = after at hcourse ⊢
  generalize engine.response? session exchange = response at hcourse ⊢
  generalize engine.trail session exchange = rounds at hcourse ⊢
  cases hcourse with
  | refused => exact .inl (.refl session)
  | noted hrole => exact .inl (Session.touched_note session exchange.entry)
  | answered turn response hrole hopening => exact .inl (opening_answered hrole hopening)
  | ran turn hrole hopening => exact .inr ⟨turn, hrole, hopening, rfl, rfl, rfl⟩

/-- Rounds are only run by a turn of the user. -/
theorem running_of_trail {round : Turn} (hround : round ∈ engine.trail session exchange) :
    ∃ turn, exchange.entry.role = .user ∧
      engine.opening exchange.journal session exchange.entry = .running turn ∧
      engine.trail session exchange = turn.trail engine := by
  have hcourse := engine.course session exchange
  generalize engine.next session exchange = after at hcourse
  generalize engine.response? session exchange = response at hcourse
  generalize engine.trail session exchange = rounds at hcourse hround ⊢
  cases hcourse with
  | refused => cases hround
  | noted hrole => cases hround
  | answered turn response hrole hopening => cases hround
  | ran turn hrole hopening => exact ⟨turn, hrole, hopening, rfl⟩

end Engine

/-! ## Sessions stay in order -/

namespace Turn

/-- At its end a turn leaves its levels as they are, drops the scopes that no frame refers to, and
has no messages left. -/
theorem session_run (engine : Engine) (turn : Turn) :
    (turn.run engine).1.session.levels = (turn.drive engine).session.levels ∧
      (turn.run engine).1.session.scopes = (turn.drive engine).session.scopes.retain
        ((turn.drive engine).session.levels.frames.map Frame.scope) := by
  simp only [run, Session.flush]
  split
  · exact ⟨rfl, rfl⟩
  · exact ⟨rfl, rfl⟩

/-- The response of a turn that has messages to show is all of them. -/
theorem response_run {engine : Engine} {turn : Turn} {earlier : List String} {text : String}
    (h : (turn.drive engine).session.outbox = earlier ++ [text]) :
    (turn.run engine).2 = some (Session.joinMessages (earlier ++ [text])) := by
  have hcollected : (turn.drive engine).session.collectScopes.outbox = earlier ++ [text] := h
  simp [run, Session.flush, hcollected]

theorem run_inOrder {engine : Engine} {turn : Turn} (horder : turn.session.InOrder) :
    (turn.run engine).1.session.InOrder := by
  obtain ⟨-, hdriven⟩ := (runs_drive engine turn).inOrder horder
  obtain ⟨hlevels, hscopes⟩ := session_run engine turn
  exact ⟨by rw [hlevels, hscopes]; exact hdriven.wellScoped.collect,
    by rw [hlevels]; exact hdriven.wellAccounted⟩

end Turn

/-- No frame of a session in order refers to a scope that does not exist. -/
theorem Session.InOrder.danglingFrame? {session : Session} (horder : session.InOrder) :
    session.danglingFrame? = none := by
  apply List.find?_eq_none.2
  intro frame hframe
  simp [horder.wellScoped.present frame (List.mem_reverse.1 hframe)]

namespace Engine

variable {engine : Engine} {session : Session}

theorem next_inOrder (horder : session.InOrder) (exchange : Exchange) :
    (engine.next session exchange).InOrder := by
  rcases next_cases engine session exchange with htouched | ⟨turn, hrole, hopening, hnext, -⟩
  · exact htouched.inOrder horder
  · have hopened := opening_inOrder engine horder hrole
    rw [hopening] at hopened
    rw [hnext]
    exact Turn.run_inOrder hopened

theorem after_inOrder (horder : session.InOrder) (exchanges : List Exchange) :
    (engine.after session exchanges).InOrder := by
  induction exchanges generalizing session with
  | nil => exact horder
  | cons exchange later ih => exact ih (next_inOrder horder exchange)

theorem Reachable.after (h : engine.Reachable session) (exchanges : List Exchange) :
    engine.Reachable (engine.after session exchanges) := by
  induction exchanges generalizing session with
  | nil => exact h
  | cons exchange later ih => exact ih (h.next exchange)

/-- Every session that an engine leads is in order. -/
theorem Reachable.inOrder (h : engine.Reachable session) : session.InOrder := by
  induction h with
  | start userId id =>
      refine ⟨.empty ?_, .empty⟩
      simp [Scopes.has, Table.has, Table.get?, startSession, Session.start, Scopes.empty]
  | next hsession exchange ih => exact next_inOrder ih exchange

/-- In a session in order, a turn that begins with something to run does run. -/
theorem ran_of_running (horder : session.InOrder) {exchange : Exchange} {turn : Turn}
    (hrole : exchange.entry.role = .user)
    (hopening : engine.opening exchange.journal session exchange.entry = .running turn) :
    engine.next session exchange = (turn.run engine).1.session ∧
      engine.response? session exchange = (turn.run engine).2 ∧
      engine.trail session exchange = turn.trail engine := by
  have hdangling := horder.danglingFrame?
  refine ⟨?_, ?_, ?_⟩
  · simp [next, update, hrole, hdangling, respond, hopening, Opening.finish]
  · simp [response?, update, hrole, hdangling, respond, hopening, Opening.finish]
  · simp [trail, opening?, hrole, hdangling, hopening]

/-- Every round of every exchange begins in order. -/
theorem trail_inOrder (horder : session.InOrder) (exchange : Exchange) {turn : Turn}
    (hturn : turn ∈ engine.trail session exchange) : turn.session.InOrder := by
  obtain ⟨opened, hrole, hopening, htrail⟩ := running_of_trail hturn
  have hopened := opening_inOrder engine horder hrole
  rw [hopening] at hopened
  rw [htrail] at hturn
  exact ((Turn.runs_drive engine opened).inOrder hopened).1 turn hturn

end Engine

/-! ## A small engine -/

namespace Kiosk

/-- A flow that asks one question and thanks for the answer. -/
def flow (name question target : String) : Definition where
  id := ""
  name := name
  description := ""
  version := ""
  steps := [.ask "question" (.plain question) (some target), .say "thanks" (.plain "Thanks")]
  vars := []
  metadata := .empty

/-- The library of some flows. -/
def stocked (flows : List Definition) : Library :=
  (Library.empty.insertUntil flows).1

/-- An engine with two such flows.  Its model takes everything for the name of a flow. -/
def engine : Engine where
  library := stocked [flow "Order" "Which size?" "size", flow "Weather" "Which city?" "city"]
  registry := ⟨[]⟩
  catalog := ⟨[]⟩
  settings := .standard
  globals := []
  model := fun _ question => .now (.ok
    ("\x7b\"flow\": \"" ++ question.message ++ "\", \"strength\": \"strong\"\x7d"))
  invoker := HostFunctions.invoker []
  now := fun _ => ""

/-- What a guest said, with nothing that has happened outside. -/
def guest (text : String) : Exchange :=
  ⟨.empty, ⟨.user, text⟩⟩

/-- The session of a guest who has said some things. -/
def sessionAfter (texts : List String) : Session :=
  engine.after (engine.startSession "guest" "kiosk") (texts.map guest)

theorem reachable_sessionAfter (texts : List String) : engine.Reachable (sessionAfter texts) :=
  (Engine.Reachable.start "guest" "kiosk").after _

end Kiosk

end Parley
