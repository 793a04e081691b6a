import Parley.Proofs.Answers
import Parley.Proofs.Locality

/-!
# Questions that stay open

A question whose answer a variable receives is the next step of its frame until the
user says something that the frame may take.  Whatever is done in the meantime, with
the session or above the frame, the frame comes to no later step without asking the
question again.  A question whose answer no variable receives is taken away as soon
as it is asked, and nothing brings it back.
-/

set_option autoImplicit false

namespace Parley

/-! ## The steps at a place -/

/-- The steps of the frame with so many others beneath it. -/
def Levels.stepsAt? (levels : Levels) (place : Nat) : Option (List Step) :=
  (levels.frameAt? place).map Frame.steps

namespace Levels

theorem stepsAt?_eq (levels : Levels) (place : Nat) :
    levels.stepsAt? place = levels.agendas.reverse[place]?.map Agenda.steps := by
  simp only [stepsAt?, frameAt?, agendas, ← List.map_reverse, List.getElem?_map, Option.map_map]
  rfl

theorem stepsAt?_top {frame : Frame} {callers : Level} {suspended : List Level} {place : Nat}
    (h : (Levels.mk (frame :: callers) suspended).frames.length = place + 1) :
    (Levels.mk (frame :: callers) suspended).stepsAt? place = some frame.steps := by
  rw [stepsAt?, frameAt?_top frame h]
  rfl

/-- The frame on top of all others is the one that runs. -/
theorem stepsAt?_of_top? {levels : Levels} {frame : Frame} {place : Nat}
    (htop : levels.top? = some frame) (h : levels.frames.length = place + 1) :
    levels.stepsAt? place = some frame.steps := by
  obtain ⟨callers, suspended, rfl⟩ := top?_eq_some.1 htop
  exact stepsAt?_top h

end Levels

/-! ## Rounds that ask -/

theorem Step.eq_ask_of_kind {step : Step} (h : step.kind = .ask) :
    ∃ id message receiver, step = .ask id message receiver := by
  cases step with
  | ask id message receiver => exact ⟨id, message, receiver, rfl⟩
  | _ => cases h

/-- A question that is asked stays the next step of its frame if a variable receives the answer, and
is taken away otherwise. -/
theorem Effect.steps_of_await {stage : Stage} {scene : Scene} {outcome : Outcome} {id : String}
    {message : Wording} {receiver : Option String}
    (h : Effect stage (.ask id message receiver) scene outcome)
    (hnext : outcome.next = .ok .await) :
    outcome.scene.frame.steps =
      if receiver.isSome then scene.frame.steps else scene.frame.steps.tail := by
  cases h with
  | asked after _ _ target hstep _ _ hsteps =>
      cases hstep
      exact hsteps
  | remarked after _ _ hstep _ _ hsteps =>
      cases hstep
      exact hsteps
  | _ => cases hnext

namespace Turn

variable {engine : Engine} {turn : Turn} {frame : Frame} {id : String} {message : Wording}
  {receiver : Option String} {rest : List Step}

/-- After a round that asks, the frame still has the question if a variable receives the answer. -/
theorem Prompts.stepsAt? (h : turn.Prompts engine frame message) (horder : turn.session.InOrder)
    (htop : turn.session.levels.top? = some frame)
    (hask : frame.steps = .ask id message receiver :: rest)
    (hbudget : turn.taken < engine.settings.maxSteps) {place : Nat}
    (hplace : turn.session.levels.frames.length = place + 1) :
    (turn.step engine).1.session.levels.stepsAt? place =
      some (if receiver.isSome then frame.steps else rest) := by
  obtain ⟨callers, suspended, hlevels⟩ := Levels.top?_eq_some.1 htop
  obtain ⟨vars, outcome, -, hstep, heffect⟩ := step_performed engine horder hlevels hask hbudget
  have hwaits := h.waits
  rcases heffect.ask with ⟨after, -, -, rfl, -⟩ | ⟨after, rfl, -⟩
  · rw [hstep] at hwaits
    cases hwaits
  · have hcharged : turn.charged.session.levels = ⟨frame :: callers, suspended⟩ := hlevels
    have hafter : after.frame.steps =
        if receiver.isSome then frame.steps else frame.steps.tail := heffect.steps_of_await rfl
    rw [hask, List.tail_cons, ← hask] at hafter
    rw [hlevels] at hplace
    have hcount : (Levels.mk (after.frame :: callers) suspended).frames.length = place + 1 := hplace
    rw [hstep, levels_settle hcharged _ (by simp), ← hafter]
    exact Levels.stepsAt?_top hcount

theorem Prompts.round (h : turn.Prompts engine frame message) :
    turn.round engine = .ended (turn.step engine).1 :=
  round_of_blocked h.waits

/-- A round that ends its turn is the last one. -/
theorem Runs.final_of_ended {first final last : Turn} {rounds : List Turn}
    (hrun : Runs engine first rounds final) (hround : turn ∈ rounds)
    (hended : turn.round engine = .ended last) : final = last := by
  induction hrun with
  | last hlast =>
      obtain rfl := List.mem_singleton.1 hround
      cases hlast.symm.trans hended
      rfl
  | more honward hrest ih =>
      rcases List.mem_cons.1 hround with rfl | hlater
      · cases honward.symm.trans hended
      · exact ih hlater

end Turn

/-! ## Beats -/

/-- In a beat in which no step was dispatched for it, a frame that outlasts the beat keeps its
steps. -/
theorem Beat.stepsAt?_of_not_serves {library : Library} {beat : Beat} {place : Nat}
    (hshift : Shift library beat.dispatched beat.before.agendas beat.after.agendas)
    (houtlasts : beat.Outlasts place) (hserves : beat.serves place = false) :
    beat.after.stepsAt? place = beat.before.stepsAt? place := by
  obtain ⟨agenda, hagenda⟩ := Levels.exists_agenda houtlasts.before
  obtain ⟨other, hother⟩ := Levels.exists_agenda houtlasts.after
  have hlength : beat.before.agendas.length = beat.before.frames.length := by
    simp [Levels.agendas]
  have hserved : ∀ step, beat.dispatched = some step →
      beat.before.agendas.length ≠ place + 1 := by
    intro step hstep htop
    rw [hlength] at htop
    simp [serves, hstep, htop] at hserves
  rw [Levels.stepsAt?_eq, Levels.stepsAt?_eq, hagenda, hother]
  have hfate := hshift.fate houtlasts.noReboot hagenda hother
  cases hfate with
  | stayed hkept => rfl
  | advanced step name later pushed hstep htop => exact absurd htop (hserved step hstep)
  | swapped step key flow hstep htop => exact absurd htop (hserved step hstep)

/-- What every beat keeps of the steps at a place stays there. -/
theorem Beats.stepsAt? {library : Library} {first last : Levels} {beats : List Beat} {place : Nat}
    {steps : List Step} (h : Beats library first beats last)
    (hkept : ∀ beat ∈ beats, beat.before.stepsAt? place = some steps →
      beat.after.stepsAt? place = some steps)
    (hfirst : first.stepsAt? place = some steps) :
    ∀ beat ∈ beats, beat.before.stepsAt? place = some steps := by
  induction h with
  | nil levels => exact nofun
  | cons beat hshift hlater ih =>
      intro other hother
      rcases List.mem_cons.1 hother with rfl | hrest
      · exact hfirst
      · exact ih (fun beat hbeat => hkept beat (List.mem_cons_of_mem _ hbeat))
          (hkept beat List.mem_cons_self hfirst) other hrest

/-! ## Conversations -/

/-- The user would rather go on with the flow that runs. -/
def Reaction.declines : Reaction → Bool
  | stay => true
  | cancel | help | status | confirm _ | interrupt _ | goOn => false

theorem Reaction.eq_stay_of_declines {reaction : Reaction} (h : reaction.declines = true) :
    reaction = .stay := by
  cases reaction with
  | stay => rfl
  | _ => cases h

namespace Engine

variable {engine : Engine} {session : Session} {exchange : Exchange}

/-- The frame at the place runs, and what the user says is left to it: it is no command, and no
other flow is started or asked about because of it. -/
structure Gives (engine : Engine) (session : Session) (exchange : Exchange) (place : Nat) :
    Prop where
  runs : session.levels.frames.length = place + 1
  reaction : engine.reaction? session exchange = some .goOn

/-- The beat is that of a round in one of the exchanges in which the frame that runs asks its
question. -/
def Asks (engine : Engine) (session : Session) (exchanges : List Exchange) (message : Wording)
    (beat : Beat) : Prop :=
  ∃ earlier exchange later, exchanges = earlier ++ exchange :: later ∧
    ∃ turn ∈ engine.trail (engine.after session earlier) exchange, beat = turn.beat engine ∧
      ∃ frame, turn.session.levels.top? = some frame ∧ turn.Prompts engine frame message

/-- What makes another flow interrupt is not left to the frame. -/
theorem not_gives_of_interrupts {place : Nat}
    (h : (engine.reaction? session exchange).any Reaction.interrupts = true) :
    ¬engine.Gives session exchange place := by
  rintro ⟨-, hreaction⟩
  rw [hreaction] at h
  cases h

/-- Only what the user leaves to a frame is taken by it. -/
theorem gives_of_takes (h : engine.Reachable session) {turn : Turn}
    (hturn : turn ∈ engine.trail session exchange) (htakes : turn.takes engine = true) {place : Nat}
    (hplace : turn.session.levels.frames.length = place + 1) :
    engine.Gives session exchange place := by
  obtain ⟨hreaction, -⟩ := stored_of_takes h hturn htakes
  obtain ⟨horder, hquiet | ⟨-, -, hnone | ⟨-, htouched, -⟩⟩⟩ := rounds_of_trail h hturn
  · rw [Turn.takes_of_quiet horder hquiet] at htakes
    cases htakes
  · simp [Turn.takes, hnone] at htakes
  · have hlength := congrArg List.length htouched.scopes_frames
    simp only [List.length_map] at hlength
    exact ⟨hlength.symm.trans hplace, hreaction⟩

/-- A round that asks leaves the session as it is after the exchange, and the question is still
there if a variable receives the answer. -/
theorem stepsAt?_of_prompts (horder : session.InOrder) {turn : Turn}
    (hturn : turn ∈ engine.trail session exchange) {frame : Frame} {id : String}
    {message : Wording} {receiver : Option String} {rest : List Step}
    (htop : turn.session.levels.top? = some frame)
    (hask : frame.steps = .ask id message receiver :: rest)
    (hbudget : turn.taken < engine.settings.maxSteps) (hprompts : turn.Prompts engine frame message)
    {place : Nat} (hplace : turn.session.levels.frames.length = place + 1) :
    (engine.next session exchange).levels.stepsAt? place =
      some (if receiver.isSome then frame.steps else rest) := by
  have hordered := trail_inOrder horder exchange hturn
  obtain ⟨opened, hrole, hopening, htrail⟩ := running_of_trail hturn
  obtain ⟨hnext, -, -⟩ := ran_of_running horder hrole hopening
  rw [htrail] at hturn
  have hfinal := (Turn.runs_drive engine opened).final_of_ended hturn hprompts.round
  rw [hnext, (Turn.session_run engine opened).1, hfinal]
  exact hprompts.stepsAt? hordered htop hask hbudget hplace

/-- A beat of the history keeps a question that a variable receives the answer to, and asks it if a
step is dispatched for its frame, unless the exchange leaves its input to the frame. -/
theorem question_kept (h : engine.Reachable session) (exchanges : List Exchange) {place : Nat}
    (hungiven : ∀ earlier exchange later, exchanges = earlier ++ exchange :: later →
      ¬engine.Gives (engine.after session earlier) exchange place)
    {beat : Beat} (hbeat : beat ∈ engine.history session exchanges)
    (houtlasts : beat.Outlasts place) {id target : String} {message : Wording} {rest : List Step}
    (hquestion : beat.before.stepsAt? place = some (.ask id message (some target) :: rest)) :
    beat.after.stepsAt? place = some (.ask id message (some target) :: rest) ∧
      (beat.serves place = true → beat.dispatched = some (.ask id message (some target)) ∧
        engine.Asks session exchanges message beat) := by
  cases hserves : beat.serves place with
  | false =>
      have hshift := (history_follows engine h.inOrder exchanges).shift_of_mem hbeat
      refine ⟨?_, nofun⟩
      rw [beat.stepsAt?_of_not_serves hshift houtlasts hserves, hquestion]
  | true =>
      simp only [Beat.serves, Bool.and_eq_true, beq_iff_eq] at hserves
      obtain ⟨hstep, hplace⟩ := hserves
      obtain ⟨step, hstep⟩ := Option.isSome_iff_exists.1 hstep
      obtain ⟨earlier, exchange, later, hsplit, turn, hturn, horder, rfl⟩ :=
        exchange_of_dispatched h.inOrder exchanges hbeat hstep
      obtain ⟨frame, htask⟩ := Turn.Task.step?_eq_some.1 hstep
      obtain ⟨htop, hbudget, later', hsteps⟩ := Turn.task_eq_dispatch.1 htask
      -- the frame that runs is the one at the place, so the step is the question
      have hask : frame.steps = .ask id message (some target) :: rest :=
        Option.some.inj ((Levels.stepsAt?_of_top? htop hplace).symm.trans hquestion)
      obtain rfl : step = .ask id message (some target) := by
        rw [hask] at hsteps
        exact (List.cons.inj hsteps).1.symm
      have htakes : turn.takes engine = false := by
        rw [Bool.eq_false_iff]
        intro htakes
        exact hungiven earlier exchange later hsplit
          (gives_of_takes (h.after earlier) hturn htakes hplace)
      have hprompts := Turn.prompts_of_ask horder htop hask hbudget htakes
      have hround : (turn.beat engine).after = (turn.step engine).1.session.levels := by
        simp only [Turn.beat, hprompts.round, Turn.Round.turn]
      refine ⟨?_, fun _ => ⟨hstep, earlier, exchange, later, hsplit, turn, hturn, rfl, frame, htop,
        hprompts⟩⟩
      rw [hround, hprompts.stepsAt? horder htop hask hbudget hplace, hask]
      rfl

/-- If the user declines to leave the flow that runs, its question is asked again, and nothing else
is done. -/
theorem asked_after_stay (hmax : 1 ≤ engine.settings.maxSteps) (h : engine.Reachable session)
    {frame : Frame} {id : String} {message : Wording} {receiver : Option String} {rest : List Step}
    (htop : session.levels.top? = some frame)
    (hask : frame.steps = .ask id message receiver :: rest)
    (hstay : engine.reaction? session exchange = some .stay) :
    ∃ turn same, engine.trail session exchange = [turn] ∧ frame.Alike same ∧
      turn.session.levels.top? = some same ∧ turn.Prompts engine same message := by
  obtain ⟨callers, suspended, hlevels⟩ := Levels.top?_eq_some.1 htop
  have hrole : exchange.entry.role = .user := by
    by_contra hother
    simp [reaction?, hother] at hstay
  obtain ⟨heard, named, reaction, hsame, hcarried, htouched, -, htaken⟩ :=
    opening_of_frame engine hrole hlevels
  rw [hstay] at hsame
  cases hsame
  obtain ⟨same, halike, hheard⟩ := htouched.levels_eq hlevels
  obtain ⟨opened, hopening, hopened, hinput, hfresh⟩ : ∃ opened,
      engine.opening exchange.journal session exchange.entry = .running opened ∧
      opened.session.levels = heard.session.levels ∧ opened.input = none ∧ opened.taken = 0 :=
    ⟨_, hcarried, rfl, rfl, htaken⟩
  obtain ⟨-, -, htrail⟩ := ran_of_running h.inOrder hrole hopening
  have horder := opening_inOrder engine h.inOrder hrole
  rw [hopening] at horder
  have htop' : opened.session.levels.top? = some same := by
    rw [hopened, hheard]
    rfl
  have htakes : opened.takes engine = false := by simp [Turn.takes, hinput]
  have hbudget : opened.taken < engine.settings.maxSteps := by omega
  have hprompts := Turn.prompts_of_ask horder htop' (halike.steps.trans hask) hbudget htakes
  obtain ⟨hsingle, -⟩ := (Turn.runs_drive engine opened).of_ended hprompts.round
  exact ⟨opened, same, htrail.trans hsingle, halike, htop', hprompts⟩

/-- When a level is left, the flow below it asks its question again before it does anything else. -/
theorem asked_after_resume (h : engine.Reachable session) {turn : Turn}
    (hturn : turn ∈ engine.trail session exchange) {frame : Frame} {callers : Level}
    {below : List Level} (hlevels : turn.session.levels = ⟨[], (frame :: callers) :: below⟩)
    {id : String} {message : Wording} {receiver : Option String} {rest : List Step}
    (hask : frame.steps = .ask id message receiver :: rest)
    (hbudget : turn.taken < engine.settings.maxSteps) :
    ∃ next, [turn, next] <:+: engine.trail session exchange ∧
      next.session.levels.top? = some (Turn.resumed turn.session.userId frame) ∧
      next.Prompts engine (Turn.resumed turn.session.userId frame) message := by
  have horder := trail_inOrder h.inOrder exchange hturn
  obtain ⟨opened, -, -, htrail⟩ := running_of_trail hturn
  have hfollowed : [turn, turn.resumedAt engine frame callers below] <:+:
      engine.trail session exchange := by
    rw [htrail] at hturn ⊢
    exact (Turn.runs_drive engine opened).followed hturn (Turn.round_resumes horder hlevels)
  have hlater : turn.resumedAt engine frame callers below ∈
      (engine.trail session exchange).tail := by
    obtain ⟨earlier, later, hsplit⟩ := hfollowed
    rw [← hsplit]
    cases earlier <;> simp
  have hresumed := trail_inOrder h.inOrder exchange (List.mem_of_mem_tail hlater)
  exact ⟨_, hfollowed, rfl, Turn.prompts_of_ask hresumed rfl hask hbudget (takes_of_tail h hlater)⟩

/-- A question that is reached, and does not take the input, is asked and ends the turn.  If a
variable receives the answer, it is still the next step of its frame then; otherwise it is gone.  As
long as the frame lives, the former stays the next step until the user leaves what is said to the
frame: whenever a step is dispatched for the frame, it is the question, and it is asked.  In
particular the question that is the next step is asked before anything else if the user declines to
leave the flow that runs, and when a flow that was interrupted goes on. -/
theorem questions_stay_open (h : engine.Reachable session) :
    (∀ exchange, ∀ turn ∈ engine.trail session exchange, ∀ frame id message receiver rest,
      turn.session.levels.top? = some frame → frame.steps = .ask id message receiver :: rest →
      turn.taken < engine.settings.maxSteps → turn.takes engine = false →
        turn.Prompts engine frame message ∧
        ∀ place, turn.session.levels.frames.length = place + 1 →
          (engine.next session exchange).levels.stepsAt? place =
            some (if receiver.isSome then frame.steps else rest)) ∧
    (∀ exchanges place id message target rest,
      session.levels.stepsAt? place = some (.ask id message (some target) :: rest) →
      (∀ earlier exchange later, exchanges = earlier ++ exchange :: later →
        ¬engine.Gives (engine.after session earlier) exchange place) →
      ∀ past, past <+: engine.history session exchanges → (∀ beat ∈ past, beat.Outlasts place) →
      ∀ beat ∈ past,
        beat.after.stepsAt? place = some (.ask id message (some target) :: rest) ∧
        (beat.serves place = true → beat.dispatched = some (.ask id message (some target)) ∧
          engine.Asks session exchanges message beat)) ∧
    (1 ≤ engine.settings.maxSteps → ∀ exchange frame id message receiver rest,
      session.levels.top? = some frame → frame.steps = .ask id message receiver :: rest →
      engine.reaction? session exchange = some .stay →
        ∃ turn same, engine.trail session exchange = [turn] ∧ frame.Alike same ∧
          turn.session.levels.top? = some same ∧ turn.Prompts engine same message) ∧
    ∀ exchange, ∀ turn ∈ engine.trail session exchange, ∀ frame callers below,
      turn.session.levels = ⟨[], (frame :: callers) :: below⟩ → ∀ id message receiver rest,
      frame.steps = .ask id message receiver :: rest → turn.taken < engine.settings.maxSteps →
        ∃ next, [turn, next] <:+: engine.trail session exchange ∧
          next.session.levels.top? = some (Turn.resumed turn.session.userId frame) ∧
          next.Prompts engine (Turn.resumed turn.session.userId frame) message := by
  refine ⟨?_, ?_, ?_, ?_⟩
  · intro exchange turn hturn frame id message receiver rest htop hask hbudget htakes
    have horder := trail_inOrder h.inOrder exchange hturn
    have hprompts := Turn.prompts_of_ask horder htop hask hbudget htakes
    exact ⟨hprompts, fun place hplace =>
      stepsAt?_of_prompts h.inOrder hturn htop hask hbudget hprompts hplace⟩
  · intro exchanges place id message target rest hfirst hungiven past hpast houtlasts
    have hkept : ∀ beat ∈ past,
        beat.before.stepsAt? place = some (.ask id message (some target) :: rest) →
        beat.after.stepsAt? place = some (.ask id message (some target) :: rest) ∧
          (beat.serves place = true → beat.dispatched = some (.ask id message (some target)) ∧
            engine.Asks session exchanges message beat) := fun beat hbeat =>
      question_kept h exchanges hungiven (hpast.subset hbeat) (houtlasts beat hbeat)
    obtain ⟨future, hsplit⟩ := hpast
    have hhistory := history_follows engine h.inOrder exchanges
    rw [← hsplit] at hhistory
    obtain ⟨middle, hrun, -⟩ := hhistory.split
    have hbefore := hrun.stepsAt? (fun beat hbeat hfound => (hkept beat hbeat hfound).1) hfirst
    exact fun beat hbeat => hkept beat hbeat (hbefore beat hbeat)
  · intro hmax exchange frame id message receiver rest htop hask hstay
    exact asked_after_stay hmax h htop hask hstay
  · intro exchange turn hturn frame callers below hlevels id message receiver rest hask hbudget
    exact asked_after_resume h hturn hlevels hask hbudget

end Engine

namespace Kiosk

/-- The frame at the bottom lives through all the beats. -/
theorem outlasts_of_all {beats : List Beat}
    (h : (beats.all fun beat => decide (0 < beat.before.frames.length) &&
      decide (0 < beat.after.frames.length) &&
      beat.dispatched.all fun step => step.kind != .callFlow) = true) :
    ∀ beat ∈ beats, beat.Outlasts 0 := by
  intro beat hbeat
  have hall := List.all_eq_true.1 h beat hbeat
  simp only [Bool.and_eq_true, decide_eq_true_eq, Option.all_eq_true, bne_iff_ne] at hall
  exact ⟨hall.1.1, hall.1.2, fun id key hreboot => hall.2 _ hreboot rfl⟩

/-- A guest who is asked for the size asks for the weather, and after that is asked for the size
again; a guest who would rather go on paying is asked for the amount again. -/
theorem order_asked_again :
    (∃ id message, ∃ beat ∈ engine.history (sessionAfter ["Order"]) (["Weather", "Paris"].map guest),
      beat.serves 0 = true ∧ beat.dispatched = some (.ask id message (some "size")) ∧
      engine.Asks (sessionAfter ["Order"]) (["Weather", "Paris"].map guest) message beat) ∧
    (∃ turn same message,
      bank.trail (bank.after (bank.startSession "guest" "bank") (["Payment", "Weather"].map guest))
        (guest "continue") = [turn] ∧ turn.Prompts bank same message) ∧
    ∃ turn next frame message,
      [turn, next] <:+: engine.trail (sessionAfter ["Order", "Weather"]) (guest "Paris") ∧
      next.Prompts engine (Turn.resumed turn.session.userId frame) message := by
  have horder := reachable_sessionAfter ["Order"]
  have hbank : bank.Reachable (bank.after (bank.startSession "guest" "bank")
      (["Payment", "Weather"].map guest)) := (Engine.Reachable.start "guest" "bank").after _
  obtain ⟨-, hopen, -, -⟩ := Engine.questions_stay_open horder
  obtain ⟨-, -, hstayed, -⟩ := Engine.questions_stay_open hbank
  obtain ⟨-, -, -, hresumed⟩ :=
    Engine.questions_stay_open (reachable_sessionAfter ["Order", "Weather"])
  refine ⟨?_, ?_, ?_⟩
  · have hwaits : ((sessionAfter ["Order"]).levels.top?.bind Frame.pendingVariable = some "size") ∧
        (sessionAfter ["Order"]).levels.frames.length = 1 := by decide +kernel
    have hserved : ((engine.history (sessionAfter ["Order"]) (["Weather", "Paris"].map guest)).any
        fun beat => beat.serves 0) = true := by decide +kernel
    obtain ⟨frame, htop, hwaiting⟩ := Option.bind_eq_some_iff.1 hwaits.1
    obtain ⟨id, message, rest, hask⟩ := horder.asksOnTop.top frame htop "size" hwaiting
    have hsteps := Levels.stepsAt?_of_top? htop hwaits.2
    rw [hask] at hsteps
    have hungiven : ∀ earlier exchange later,
        ["Weather", "Paris"].map guest = earlier ++ exchange :: later →
        ¬engine.Gives (engine.after (sessionAfter ["Order"]) earlier) exchange 0 := by
      intro earlier exchange later hsplit
      rcases earlier with _ | ⟨first, _ | ⟨second, more⟩⟩
      · obtain rfl : guest "Weather" = exchange := (List.cons.inj hsplit).1
        exact Engine.not_gives_of_interrupts (by decide +kernel)
      · obtain rfl : guest "Weather" = first := (List.cons.inj hsplit).1
        rintro ⟨hruns, -⟩
        exact absurd hruns (by decide +kernel)
      · simp at hsplit
    obtain ⟨beat, hbeat, hserves⟩ := List.any_eq_true.1 hserved
    obtain ⟨-, hasks⟩ := hopen _ 0 id message "size" rest hsteps hungiven _ List.prefix_rfl
      (outlasts_of_all (by decide +kernel)) beat hbeat
    obtain ⟨hdispatched, hasked⟩ := hasks hserves
    exact ⟨id, message, beat, hbeat, hserves, hdispatched, hasked⟩
  · have hwaits : ((bank.after (bank.startSession "guest" "bank")
        (["Payment", "Weather"].map guest)).levels.top?.bind Frame.pendingVariable =
          some "amount") := by decide +kernel
    have hstay : ((bank.reaction? (bank.after (bank.startSession "guest" "bank")
        (["Payment", "Weather"].map guest)) (guest "continue")).any Reaction.declines) = true := by
      decide +kernel
    obtain ⟨frame, htop, hwaiting⟩ := Option.bind_eq_some_iff.1 hwaits
    obtain ⟨id, message, rest, hask⟩ := hbank.asksOnTop.top frame htop "amount" hwaiting
    obtain ⟨reaction, hreaction, hdeclines⟩ := (Option.any_eq_true _ _).1 hstay
    obtain rfl := Reaction.eq_stay_of_declines hdeclines
    obtain ⟨turn, same, htrail, -, -, hprompts⟩ := hstayed (by decide) (guest "continue") frame id
      message (some "amount") rest htop hask hreaction
    exact ⟨turn, same, message, htrail, hprompts⟩
  · have hleft : ((engine.trail (sessionAfter ["Order", "Weather"]) (guest "Paris")).any fun turn =>
        turn.session.levels.current.isEmpty && decide (turn.taken < engine.settings.maxSteps) &&
          (turn.session.levels.suspended.head?.bind List.head?).any fun frame =>
            frame.steps.head?.any fun step => step.kind == .ask) = true := by decide +kernel
    obtain ⟨turn, hturn, hvacant⟩ := List.any_eq_true.1 hleft
    simp only [Bool.and_eq_true, decide_eq_true_eq, List.isEmpty_iff, Option.any_eq_true,
      beq_iff_eq] at hvacant
    obtain ⟨⟨hempty, hbudget⟩, frame, hframe, step, hstep, hkind⟩ := hvacant
    obtain ⟨level, hlevel, hframe⟩ := Option.bind_eq_some_iff.1 hframe
    obtain ⟨callers, rfl⟩ := List.head?_eq_some_iff.1 hframe
    obtain ⟨below, hbelow⟩ := List.head?_eq_some_iff.1 hlevel
    obtain ⟨rest, hask⟩ := List.head?_eq_some_iff.1 hstep
    obtain ⟨id, message, receiver, rfl⟩ := Step.eq_ask_of_kind hkind
    have hlevels : turn.session.levels = ⟨[], (frame :: callers) :: below⟩ := by
      rw [← hempty, ← hbelow]
    obtain ⟨next, hfollows, -, hprompts⟩ := hresumed (guest "Paris") turn hturn frame callers below
      hlevels id message receiver rest hask hbudget
    exact ⟨turn, next, frame, message, hfollows, hprompts⟩

/-- An engine with an order whose question has no variable, and a flow that asks nothing. -/
def hasty : Engine :=
  { engine with
    library := stocked [{ flow "Order" "" "" with
        steps := [.ask "question" (.plain "Shall I order?") none,
          .say "order" (.plain "Ordered")] },
      { flow "Weather" "" "" with steps := [.say "weather" (.plain "Sunny")] }] }

/-- There the weather interrupts the order at its question, and the order goes on with its next step
without having been told anything. -/
theorem order_not_awaited :
    ¬∀ exchange, ∀ turn ∈ hasty.trail (hasty.startSession "guest" "kiosk") exchange,
      ∀ frame id message receiver rest, turn.session.levels.top? = some frame →
      frame.steps = .ask id message receiver :: rest → turn.Prompts hasty frame message →
      ∀ place, turn.session.levels.frames.length = place + 1 →
      let asked := hasty.next (hasty.startSession "guest" "kiosk") exchange
      ∀ exchanges, (∀ earlier other later, exchanges = earlier ++ other :: later →
        ¬hasty.Gives (hasty.after asked earlier) other place) →
      ∀ past, past <+: hasty.history asked exchanges → (∀ beat ∈ past, beat.Outlasts place) →
      ∀ beat ∈ past, beat.serves place = true →
        beat.dispatched = some (.ask id message receiver) := by
  intro h
  have hrounds : ((hasty.trail (hasty.startSession "guest" "kiosk") (guest "Order")).any fun turn =>
      decide (turn.session.levels.frames.length = 1) && !turn.takes hasty &&
        (turn.task hasty).step?.any fun step => step.kind == .ask) = true := by decide +kernel
  have hserved : (((hasty.history (hasty.next (hasty.startSession "guest" "kiosk") (guest "Order"))
      [guest "Weather"]).take 5).any fun beat => beat.serves 0 &&
        beat.dispatched.any fun step => step.kind == .say) = true := by decide +kernel
  obtain ⟨turn, hturn, hround⟩ := List.any_eq_true.1 hrounds
  simp only [Bool.and_eq_true, decide_eq_true_eq, Bool.not_eq_true', Option.any_eq_true,
    beq_iff_eq] at hround
  obtain ⟨⟨hplace, htakes⟩, step, hstep, hkind⟩ := hround
  obtain ⟨id, message, receiver, rfl⟩ := Step.eq_ask_of_kind hkind
  obtain ⟨frame, htask⟩ := Turn.Task.step?_eq_some.1 hstep
  obtain ⟨htop, hbudget, rest, hask⟩ := Turn.task_eq_dispatch.1 htask
  have horder := Engine.trail_inOrder (Engine.Reachable.start "guest" "kiosk").inOrder
    (guest "Order") hturn
  have hprompts := Turn.prompts_of_ask horder htop hask hbudget htakes
  have hungiven : ∀ earlier other later, [guest "Weather"] = earlier ++ other :: later →
      ¬hasty.Gives (hasty.after (hasty.next (hasty.startSession "guest" "kiosk") (guest "Order"))
        earlier) other 0 := by
    intro earlier other later hsplit
    rcases earlier with _ | ⟨first, more⟩
    · obtain rfl : guest "Weather" = other := (List.cons.inj hsplit).1
      exact Engine.not_gives_of_interrupts (by decide +kernel)
    · simp at hsplit
  obtain ⟨beat, hbeat, hserves⟩ := List.any_eq_true.1 hserved
  obtain ⟨hserves, hsays⟩ := Bool.and_eq_true_iff.1 hserves
  have hagain := h (guest "Order") turn hturn frame id message receiver rest htop hask hprompts 0
    hplace [guest "Weather"] hungiven _ (List.take_prefix 5 _)
    (outlasts_of_all (by decide +kernel)) beat hbeat hserves
  simp [hagain, Step.kind] at hsays

end Kiosk

end Parley
