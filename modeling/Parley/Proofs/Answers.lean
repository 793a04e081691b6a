import Parley.Proofs.Hearing
import Parley.Proofs.Questions

/-!
# Where the input goes

Of all rounds of a turn only the first can take the input, and it does so exactly
if the frame that runs has waited for it since the turn before and nothing else is
made of what the user said.  Every other question that the turn comes to is asked.
-/

set_option autoImplicit false

namespace Parley

namespace Turn

/-- The round takes the input: there is one at its beginning and none after its step. -/
def takes (engine : Engine) (turn : Turn) : Bool :=
  turn.input.isSome && (turn.step engine).1.input.isNone

/-- The round takes the input for the answer to the question that is the next step, and sets the
variable that waits for it and nothing else. -/
structure Answers (engine : Engine) (turn : Turn) (frame : Frame) (target input : String) :
    Prop where
  top : turn.session.levels.top? = some frame
  waiting : frame.pendingVariable = some target
  heard : turn.input = some input
  taken : (turn.step engine).1.input = none
  stored : ∃ vars, turn.session.scopes.get? frame.scope = some vars ∧
    (turn.step engine).1.session.scopes =
      turn.session.scopes.put frame.scope (Table.set target (.str input) vars)

/-- The round asks the question that is the next step of the frame that runs: it shows the question
and waits, and leaves the input and all variables as they are. -/
structure Prompts (engine : Engine) (turn : Turn) (frame : Frame) (message : Wording) : Prop where
  waits : (turn.step engine).2 = .ok .blocked
  shown : ∃ vars, turn.session.scopes.get? frame.scope = some vars ∧
    (turn.step engine).1.session.outbox = turn.session.outbox ++
      [(turn.stage engine).question frame.justResumed
        ((turn.stage engine).wordingIn (turn.scene frame vars) message)]
  input : (turn.step engine).1.input = turn.input
  kept : ∀ id, (turn.step engine).1.session.scopes.get? id = turn.session.scopes.get? id

variable {engine : Engine} {turn : Turn}

theorem input_settle (turn : Turn) (outcome : Outcome) :
    (turn.settle outcome).1.input = outcome.scene.input := by
  obtain ⟨scene, next⟩ := outcome
  match next with
  | .error e => rfl
  | .ok .proceed => rfl
  | .ok .await => rfl
  | .ok .leave => rfl
  | .ok (.enter frame) => rfl
  | .ok (.restart none) => rfl
  | .ok (.restart (some flow)) => rfl

/-- A step hands the input on, or it answers a question with it. -/
theorem step_input (engine : Engine) (horder : turn.session.InOrder) :
    (turn.step engine).1.input = turn.input ∨
      ∃ frame target input, turn.Answers engine frame target input := by
  have hmove := step_move engine horder
  generalize hstep : turn.step engine = result at hmove ⊢
  cases hmove with
  | idled hlevels => exact .inl rfl
  | resumed frame callers below hlevels => exact .inl rfl
  | exhausted frame callers suspended hlevels hlimit => exact .inl rfl
  | finished frame callers suspended hlevels hlimit hsteps => exact .inl rfl
  | performed frame callers suspended step rest vars outcome hlevels hlimit hsteps hvars heffect =>
      rw [input_settle]
      cases heffect with
      | answered after target input hkind hwaiting hsaid hcontinues hafter hpending hset hnone =>
          refine .inr ⟨frame, target, input, ?_⟩
          refine ⟨by rw [hlevels]; rfl, hwaiting, hsaid, ?_, vars, hvars, ?_⟩
          · rw [hstep, input_settle]
            exact hnone
          · have hscope : after.frame.scope = frame.scope := hcontinues.scope
            have hsame : after.vars = Table.set target (.str input) vars := hset
            rw [hstep, ← hscope, ← hsame]
            rfl
      | proceeded after pushed hkind hcontinues hafter hpushed hpending hinput => exact .inl hinput
      | asked after id message target hask hready hcontinues hafter hpending hshown hsaid hset
          hinput =>
          exact .inl hinput
      | remarked after id message hask hready hcontinues hafter hpending hsaid hset hinput =>
          exact .inl hinput
      | gaveUp after hkind hcontinues hinput => exact .inl hinput
      | entered after flow initiator hkind hroom hcontinues hafter hpending hinput =>
          exact .inl hinput
      | replaced after flow initiator closed hkind hafter hclosed hreason hinput =>
          exact .inl hinput
      | rebooted after id key flow hreboot hflow hafter hinput => exact .inl hinput
      | failed error hkind herror => exact .inl rfl

/-- A round that takes the input answers a question with it. -/
theorem answers_of_takes (horder : turn.session.InOrder) (h : turn.takes engine = true) :
    ∃ frame target input, turn.Answers engine frame target input := by
  obtain ⟨hheard, htaken⟩ := Bool.and_eq_true_iff.1 h
  rcases step_input engine horder with hsame | hanswers
  · rw [hsame] at htaken
    cases hinput : turn.input with
    | none => simp [hinput] at hheard
    | some input => simp [hinput] at htaken
  · exact hanswers

theorem Answers.takes {frame : Frame} {target input : String}
    (h : turn.Answers engine frame target input) : turn.takes engine = true := by
  simp [Turn.takes, h.heard, h.taken]

/-- A round in which no frame waits does not take the input. -/
theorem takes_of_quiet (horder : turn.session.InOrder) (hquiet : turn.session.levels.Quiet) :
    turn.takes engine = false := by
  rw [Bool.eq_false_iff]
  intro htakes
  obtain ⟨frame, target, input, hanswers⟩ := answers_of_takes horder htakes
  have hframe : frame ∈ turn.session.levels.frames :=
    Levels.mem_frames.2 (.inl (List.mem_of_head? hanswers.top))
  have hnone := hquiet frame hframe
  rw [hanswers.waiting] at hnone
  cases hnone

/-- A step of a frame that waits takes the input, if there is one and the budget allows the step. -/
theorem takes_of_waiting (horder : turn.session.InOrder) (hasks : turn.session.levels.AsksOnTop)
    {frame : Frame} {target input : String} (htop : turn.session.levels.top? = some frame)
    (hwaiting : frame.pendingVariable = some target) (hinput : turn.input = some input)
    (hbudget : turn.taken < engine.settings.maxSteps) : turn.takes engine = true := by
  obtain ⟨callers, suspended, hlevels⟩ := Levels.top?_eq_some.1 htop
  obtain ⟨id, message, later, hask⟩ := hasks.top frame htop target hwaiting
  obtain ⟨vars, outcome, -, hstep, heffect⟩ := step_performed engine horder hlevels hask hbudget
  have htaken : (turn.step engine).1.input = none := by
    rw [hstep, input_settle]
    rcases heffect.ask with ⟨after, -, -, rfl, hnone, -⟩ | ⟨after, -, hready | hready, -⟩
    · exact hnone
    · cases hwaiting.symm.trans hready
    · cases hinput.symm.trans hready
  simp [takes, hinput, htaken]

/-- A question that is the next step and does not take the input is asked, if the budget allows the
step. -/
theorem prompts_of_ask (horder : turn.session.InOrder) {frame : Frame} {id : String}
    {message : Wording} {receiver : Option String} {later : List Step}
    (htop : turn.session.levels.top? = some frame)
    (hask : frame.steps = .ask id message receiver :: later)
    (hbudget : turn.taken < engine.settings.maxSteps) (htakes : turn.takes engine = false) :
    turn.Prompts engine frame message := by
  obtain ⟨callers, suspended, hlevels⟩ := Levels.top?_eq_some.1 htop
  obtain ⟨vars, outcome, hvars, hstep, heffect⟩ := step_performed engine horder hlevels hask hbudget
  rcases heffect.ask with ⟨after, target, input, rfl, hnone, -, hheard⟩ |
    ⟨after, rfl, -, hscope, hkept, hinput, hsaid, -⟩
  · have hgone : (turn.step engine).1.input = none := by
      rw [hstep, input_settle]
      exact hnone
    have hinput : turn.input = some input := hheard
    simp [takes, hinput, hgone] at htakes
  · constructor
    · rw [hstep]
      rfl
    · refine ⟨vars, hvars, ?_⟩
      rw [hstep]
      exact congrArg (turn.session.outbox ++ ·) hsaid
    · rw [hstep, input_settle]
      exact hinput
    · intro other
      rw [hstep, scopes_settle _ (by simp), hscope, hkept]
      exact Scopes.get?_put_same hvars other

end Turn

namespace Engine

variable {engine : Engine} {session : Session} {exchange : Exchange}

/-- Only the first round of an exchange can have a frame that waits, and before it nothing has been
done but to touch the session, if there still is an input. -/
theorem rounds_of_trail (h : engine.Reachable session) {turn : Turn}
    (hturn : turn ∈ engine.trail session exchange) :
    turn.session.InOrder ∧ (turn.session.levels.Quiet ∨
      turn.taken = 0 ∧ turn.session.levels.AsksOnTop ∧
        (turn.input = none ∨ engine.reaction? session exchange = some .goOn ∧
          session.Touched turn.session ∧ turn.input = some exchange.entry.content)) := by
  obtain ⟨opened, hrole, hopening, htrail⟩ := running_of_trail hturn
  have horder := opening_inOrder engine h.inOrder hrole
  have hasks := opening_asks engine h.asksOnTop hrole
  rw [hopening] at horder hasks
  have hruns := Turn.runs_drive engine opened
  rw [htrail] at hturn
  refine ⟨(hruns.inOrder horder).1 turn hturn, ?_⟩
  obtain ⟨rounds, hrounds⟩ := Turn.trail_eq engine opened
  have hlater := (hruns.asks horder hasks).1
  rw [hrounds] at hturn hlater
  rcases List.mem_cons.1 hturn with rfl | htail
  · obtain ⟨htaken, hinput⟩ := opening_running hrole hopening
    exact .inr ⟨htaken, hasks, hinput⟩
  · exact .inl (hlater turn htail)

/-- No round after the first takes the input. -/
theorem takes_of_tail (h : engine.Reachable session) {turn : Turn}
    (hturn : turn ∈ (engine.trail session exchange).tail) : turn.takes engine = false := by
  obtain ⟨opened, hrole, hopening, htrail⟩ := running_of_trail (List.mem_of_mem_tail hturn)
  have horder := opening_inOrder engine h.inOrder hrole
  have hasks := opening_asks engine h.asksOnTop hrole
  rw [hopening] at horder hasks
  have hruns := Turn.runs_drive engine opened
  rw [htrail] at hturn
  exact Turn.takes_of_quiet ((hruns.inOrder horder).1 turn (List.mem_of_mem_tail hturn))
    ((hruns.asks horder hasks).1 turn hturn)

/-- A round that takes the input does so for the frame that waited when the user said it, in scopes
that nobody has changed since. -/
theorem stored_of_takes (h : engine.Reachable session) {turn : Turn}
    (hturn : turn ∈ engine.trail session exchange) (htakes : turn.takes engine = true) :
    engine.reaction? session exchange = some .goOn ∧
      ∃ frame target vars, session.levels.top? = some frame ∧
        frame.pendingVariable = some target ∧ session.scopes.get? frame.scope = some vars ∧
        turn.session.scopes = session.scopes ∧
        (turn.step engine).1.session.scopes = session.scopes.put frame.scope
          (Table.set target (.str exchange.entry.content) vars) := by
  obtain ⟨horder, hquiet | ⟨-, -, hnone | ⟨hreaction, htouched, hinput⟩⟩⟩ := rounds_of_trail h hturn
  · rw [Turn.takes_of_quiet horder hquiet] at htakes
    cases htakes
  · simp [Turn.takes, hnone] at htakes
  -- what is left is the first round of a flow that goes on with the input
  · obtain ⟨named, target, input, hanswers⟩ := Turn.answers_of_takes horder htakes
    obtain ⟨vars, hvars, hstored⟩ := hanswers.stored
    have hsaid : input = exchange.entry.content :=
      Option.some.inj (hanswers.heard.symm.trans hinput)
    subst hsaid
    rw [htouched.scopes] at hvars hstored
    refine ⟨hreaction, ?_⟩
    have htop := hanswers.top
    rcases hlevels : session.levels with ⟨current, suspended⟩
    cases current with
    | nil =>
        rw [htouched.levels_eq_of_nil hlevels] at htop
        cases htop
    | cons frame callers =>
        obtain ⟨frame', halike, hturn'⟩ := htouched.levels_eq hlevels
        rw [hturn'] at htop
        cases htop
        rw [halike.scope] at hvars hstored
        exact ⟨frame, target, vars, rfl, halike.pendingVariable ▸ hanswers.waiting, hvars,
          htouched.scopes, hstored⟩

/-- If a frame waits and the flow goes on with the input, then a round takes the input. -/
theorem takes_of_goOn (hmax : 1 ≤ engine.settings.maxSteps) (h : engine.Reachable session)
    (hrole : exchange.entry.role = .user) {frame : Frame} {target : String}
    (htop : session.levels.top? = some frame) (hwaiting : frame.pendingVariable = some target)
    (hreaction : engine.reaction? session exchange = some .goOn) :
    ∃ turn ∈ engine.trail session exchange, turn.takes engine = true := by
  obtain ⟨opened, hopening, htouched, hinput, htaken⟩ := opening_of_goOn engine hrole hreaction
  obtain ⟨rounds, hrounds⟩ := Turn.trail_eq engine opened
  refine ⟨opened, ?_, ?_⟩
  · rw [(ran_of_running h.inOrder hrole hopening).2.2, hrounds]
    exact List.mem_cons_self
  · rcases hlevels : session.levels with ⟨current, suspended⟩
    rw [hlevels] at htop
    obtain ⟨callers, rfl⟩ := List.head?_eq_some_iff.1 htop
    obtain ⟨frame', halike, hopened⟩ := htouched.levels_eq hlevels
    refine Turn.takes_of_waiting (htouched.inOrder h.inOrder) (htouched.asksOnTop h.asksOnTop)
      (by rw [hopened]; rfl) (halike.pendingVariable.trans hwaiting) hinput ?_
    rw [htaken]
    exact hmax

/-- Between exchanges only the frame that runs may wait for an answer, and its next step is the
question.  Of what the user says in an exchange, the first round makes the answer exactly if that
frame waits and the flow goes on with the input; then the variable that waits is set before anything
else is done.  No other round takes the input or depends on it, and every other question that is
reached is asked. -/
theorem input_reaches_its_question (hmax : 1 ≤ engine.settings.maxSteps)
    (h : engine.Reachable session) :
    session.levels.AsksOnTop ∧ ∀ exchange, exchange.entry.role = .user →
      ((∃ turn ∈ engine.trail session exchange, turn.takes engine = true) ↔
        (∃ frame target, session.levels.top? = some frame ∧
          frame.pendingVariable = some target) ∧
        engine.reaction? session exchange = some .goOn) ∧
      (∀ turn ∈ (engine.trail session exchange).tail, turn.takes engine = false) ∧
      (∀ turn ∈ engine.trail session exchange, turn.takes engine = true →
        ∃ frame target vars, session.levels.top? = some frame ∧
          frame.pendingVariable = some target ∧ session.scopes.get? frame.scope = some vars ∧
          turn.session.scopes = session.scopes ∧
          (turn.step engine).1.session.scopes = session.scopes.put frame.scope
            (Table.set target (.str exchange.entry.content) vars)) ∧
      ∀ turn ∈ engine.trail session exchange, turn.takes engine = false →
        (turn.input ≠ none → ∀ other, (turn.hearing other).step engine =
          ((turn.step engine).1.hearing other, (turn.step engine).2)) ∧
        ∀ frame id message receiver later, turn.session.levels.top? = some frame →
          frame.steps = .ask id message receiver :: later →
          turn.taken < engine.settings.maxSteps → turn.Prompts engine frame message := by
  refine ⟨h.asksOnTop, fun exchange hrole => ⟨⟨?_, ?_⟩, ?_, ?_, ?_⟩⟩
  · rintro ⟨turn, hturn, htakes⟩
    obtain ⟨hreaction, frame, target, vars, htop, hwaiting, -⟩ := stored_of_takes h hturn htakes
    exact ⟨⟨frame, target, htop, hwaiting⟩, hreaction⟩
  · rintro ⟨⟨frame, target, htop, hwaiting⟩, hreaction⟩
    exact takes_of_goOn hmax h hrole htop hwaiting hreaction
  · intro turn hturn
    exact takes_of_tail h hturn
  · intro turn hturn htakes
    exact (stored_of_takes h hturn htakes).2
  · intro turn hturn htakes
    obtain ⟨horder, hrounds⟩ := rounds_of_trail h hturn
    constructor
    · intro hinput other
      refine Turn.step_hearing engine turn ?_ other
      intro frame hframe
      rcases hrounds with hquiet | ⟨htaken, hasks, -⟩
      · exact hquiet frame (Levels.mem_frames.2 (.inl (List.mem_of_head? hframe)))
      · cases hwaiting : frame.pendingVariable with
        | none => rfl
        | some target =>
            obtain ⟨input, hheard⟩ := Option.ne_none_iff_exists'.1 hinput
            have hbudget : turn.taken < engine.settings.maxSteps := by omega
            rw [Turn.takes_of_waiting horder hasks hframe hwaiting hheard hbudget] at htakes
            cases htakes
    · intro frame id message receiver later htop hask hbudget
      exact Turn.prompts_of_ask horder htop hask hbudget htakes

end Engine

namespace Kiosk

/-- The answer to the question of the first flow is put into its variable. -/
theorem answer_stored :
    ∃ turn ∈ engine.trail (sessionAfter ["Order"]) (guest "large"), ∃ frame vars,
      (sessionAfter ["Order"]).levels.top? = some frame ∧ frame.pendingVariable = some "size" ∧
        (turn.step engine).1.session.scopes = (sessionAfter ["Order"]).scopes.put frame.scope
          (Table.set "size" (.str "large") vars) := by
  have hrounds : ((engine.trail (sessionAfter ["Order"]) (guest "large")).any fun turn =>
      turn.takes engine) = true := by decide +kernel
  obtain ⟨turn, hturn, htakes⟩ := List.any_eq_true.1 hrounds
  have hmax : 1 ≤ engine.settings.maxSteps := by decide
  obtain ⟨-, hexchange⟩ :=
    Engine.input_reaches_its_question hmax (reachable_sessionAfter ["Order"])
  obtain ⟨-, -, hstored, -⟩ := hexchange (guest "large") rfl
  obtain ⟨frame, target, vars, htop, hwaiting, -, -, hput⟩ := hstored turn hturn htakes
  have htarget : (sessionAfter ["Order"]).levels.top?.bind Frame.pendingVariable = some "size" := by
    decide +kernel
  rw [htop, Option.bind_some, hwaiting] at htarget
  cases htarget
  exact ⟨turn, hturn, frame, vars, htop, hwaiting, hput⟩

end Kiosk

end Parley
