import Parley.Proofs.OpenQuestions
import Parley.Proofs.ResumptionMarks

/-!
# The hint beside a question

A question comes with a hint about commands, if the engine gives hints at all.  It is
left out if the frame that asks has gone on after an interruption and has not asked
anything since.  Mostly the same response says that the flow goes on.  It does not if
the flow first calls another one that asks: then the hint is left out in a later turn.
-/

set_option autoImplicit false

namespace Parley

/-! ## Questions with the hint -/

theorem Session.length_joinMessages (first second : String) :
    (Session.joinMessages [first, second]).length = first.length + 2 + second.length := by
  have hblank : ("\n\n" : String).toList.length = 2 := by decide
  simp only [joinMessages, joined, List.map_cons, List.map_nil, Text.joinWith, String.length_ofList,
    List.length_append, String.length_toList, hblank]

theorem Session.joinMessages_singleton (text : String) : Session.joinMessages [text] = text := by
  simp [joinMessages, joined, Text.joinWith]

/-- With the hint a question is another text. -/
theorem Stage.question_ne {stage : Stage} (hguidance : stage.engine.settings.guidance.enabled = true)
    (text : String) : stage.question false text ≠ text := by
  intro h
  have hlength := congrArg String.length h
  simp only [question, hguidance, Bool.not_false, Bool.and_self, if_true] at hlength
  split at hlength
  · rw [Session.length_joinMessages] at hlength
    omega
  · rw [Session.length_joinMessages] at hlength
    omega

namespace Turn

/-- The text of a question that the frame asks in the round, without the hint. -/
def questionText (engine : Engine) (turn : Turn) (frame : Frame) (message : Wording) : String :=
  (turn.stage engine).wordingIn
    (turn.scene frame ((turn.session.scopes.get? frame.scope).getD [])) message

variable {engine : Engine} {turn : Turn} {frame : Frame} {message : Wording}

theorem Prompts.outbox (h : turn.Prompts engine frame message) :
    (turn.step engine).1.session.outbox = turn.session.outbox ++
      [(turn.stage engine).question frame.justResumed
        (turn.questionText engine frame message)] := by
  obtain ⟨vars, hvars, hshown⟩ := h.shown
  rw [hshown, questionText, hvars]
  rfl

/-! ## Frames that are marked -/

/-- Of every frame that is marked the turn has said that it goes on, or a frame for the same flow
was marked at its place before. -/
def Announced (engine : Engine) (before : Levels) (turn : Turn) : Prop :=
  ∀ place frame, turn.session.levels.frameAt? place = some frame → frame.justResumed = true →
    engine.notice .resuming [("flow", frame.flowName)] ∈ turn.session.outbox ∨
      ∃ older, before.frameAt? place = some older ∧ older.justResumed = true ∧
        older.flowName = frame.flowName

/-- The beats of the rounds of a run lead to each of its turns. -/
theorem Runs.beats_until {first final : Turn} {rounds : List Turn}
    (hrun : Runs engine first rounds final) (horder : first.session.InOrder)
    (hturn : turn ∈ rounds) :
    ∃ past, past <+: rounds.map (Turn.beat engine) ∧
      Beats engine.library first.session.levels past turn.session.levels := by
  induction hrun with
  | last hended =>
      obtain rfl := List.mem_singleton.1 hturn
      exact ⟨[], List.nil_prefix, .nil _⟩
  | @more first next final later honward hrest ih =>
      rcases List.mem_cons.1 hturn with rfl | hlater
      · exact ⟨[], List.nil_prefix, .nil _⟩
      · obtain ⟨past, hpast, hbeats⟩ := ih (round_inOrder horder honward) hlater
        have hshift := round_shift horder (.inl honward)
        have hbeat : first.beat engine =
            ⟨first.session.levels, (first.task engine).step?, next.session.levels⟩ := by
          simp only [Turn.beat, honward, Round.turn]
        refine ⟨first.beat engine :: past, (List.prefix_cons_inj _).2 hpast, ?_⟩
        rw [hbeat]
        exact .cons ⟨_, _, _⟩ hshift hbeats

/-- What is announced stays so in every round after which the turn goes on. -/
theorem Announced.onward {before : Levels} {next : Turn} (h : turn.Announced engine before)
    (horder : turn.session.InOrder) (hmarks : turn.session.levels.MarksOnTop)
    (honward : turn.round engine = .onward next) : next.Announced engine before := by
  intro place frame hframe hmarked
  have hbeat : (turn.beat engine).Marks engine.library := beat_marks horder hmarks
  have hafter : (turn.beat engine).after = next.session.levels := by
    simp only [Turn.beat, honward, Round.turn]
  rw [round_said horder honward]
  rw [← hafter] at hframe
  rcases hbeat.marked_before hframe hmarked with
    ⟨older, holder, hsame, hname⟩ | ⟨older, callers, below, hlevels, hname⟩
  · rcases h place older holder hsame with hsaid | ⟨first, hfirst, hfirstMarked, hfirstName⟩
    · exact .inl (List.mem_append_left _ (hname ▸ hsaid))
    · exact .inr ⟨first, hfirst, hfirstMarked, hfirstName.trans hname⟩
  · have hbefore : turn.session.levels = ⟨[], (older :: callers) :: below⟩ := hlevels
    have hspeech : turn.speech engine =
        [engine.notice .resuming [("flow", frame.flowName)]] := by
      simp [speech, task, hbefore, Levels.top?, hname]
    rw [hspeech]
    exact .inl (List.mem_concat_self)

theorem Runs.announced {before : Levels} {first final : Turn} {rounds : List Turn}
    (hrun : Runs engine first rounds final) (horder : first.session.InOrder)
    (hmarks : ∀ round ∈ rounds, round.session.levels.MarksOnTop)
    (h : first.Announced engine before) : ∀ round ∈ rounds, round.Announced engine before := by
  induction hrun with
  | last hended =>
      intro round hround
      obtain rfl := List.mem_singleton.1 hround
      exact h
  | more honward hrest ih =>
      obtain ⟨hfirst, hlater⟩ := List.forall_mem_cons.1 hmarks
      exact List.forall_mem_cons.2
        ⟨h, ih (round_inOrder horder honward) hlater (h.onward horder hfirst honward)⟩

end Turn

namespace Engine

variable {engine : Engine} {session : Session} {exchange : Exchange}

/-- The beats of an exchange lead to each of its rounds. -/
theorem beats_until (horder : session.InOrder) {turn : Turn}
    (hturn : turn ∈ engine.trail session exchange) :
    ∃ past, past <+: engine.beats session exchange ∧
      Beats engine.library session.levels past turn.session.levels := by
  obtain ⟨opened, hrole, hopening, htrail⟩ := running_of_trail hturn
  have hordered := opening_inOrder engine horder hrole
  rw [hopening] at hordered
  rw [htrail] at hturn
  have hrun := Turn.runs_drive engine opened
  obtain ⟨past, hpast, hfollow⟩ := hrun.beats_until hordered hturn
  have hbeats : engine.beats session exchange =
      ⟨session.levels, none, opened.session.levels⟩ ::
        (opened.trail engine).map (Turn.beat engine) := by
    rw [← hrun.beats_eq]
    simp [beats, opening?, hrole, horder.danglingFrame?, hopening]
  refine ⟨⟨session.levels, none, opened.session.levels⟩ :: past, ?_, ?_⟩
  · rw [hbeats]
    exact (List.prefix_cons_inj _).2 hpast
  · exact .cons ⟨_, _, _⟩ (opening_begun hrole hopening).shift hfollow

/-- The history of some exchanges leads to each round of the exchange after them. -/
theorem history_until (horder : session.InOrder) (exchanges : List Exchange) {turn : Turn}
    (hturn : turn ∈ engine.trail (engine.after session exchanges) exchange) :
    ∃ past, past <+: engine.history session (exchanges ++ [exchange]) ∧
      Beats engine.library session.levels past turn.session.levels := by
  obtain ⟨during, hduring, hfollow⟩ := beats_until (after_inOrder horder exchanges) hturn
  refine ⟨engine.history session exchanges ++ during, ?_,
    (history_follows engine horder exchanges).append hfollow⟩
  rw [history_concat]
  exact (List.prefix_append_right_inj _).2 hduring

/-- In every round, of each frame that is marked it has been said in the exchange that it goes on, or
it was marked when the exchange began. -/
theorem announced_of_trail (h : engine.Reachable session) {turn : Turn}
    (hturn : turn ∈ engine.trail session exchange) : turn.Announced engine session.levels := by
  obtain ⟨opened, hrole, hopening, htrail⟩ := running_of_trail hturn
  have hordered := opening_inOrder engine h.inOrder hrole
  rw [hopening] at hordered
  obtain ⟨-, hmarking⟩ := (opening_begun hrole hopening).marking not_false
  have hopened : opened.Announced engine session.levels := fun place frame hframe hmarked =>
    .inr (hmarking.marked_before hframe hmarked)
  have hmarks : ∀ round ∈ engine.trail session exchange, round.session.levels.MarksOnTop :=
    fun round hround => trail_marksOnTop h hround
  rw [htrail] at hturn hmarks
  exact (Turn.runs_drive engine opened).announced hordered hmarks hopened turn hturn

/-- The response to an exchange in which a question is asked ends with the question. -/
theorem response_of_prompts (horder : session.InOrder) {turn : Turn} {frame : Frame}
    {message : Wording} (hturn : turn ∈ engine.trail session exchange)
    (hprompts : turn.Prompts engine frame message) :
    engine.response? session exchange = some (Session.joinMessages (turn.session.outbox ++
      [(turn.stage engine).question frame.justResumed
        (turn.questionText engine frame message)])) := by
  obtain ⟨opened, hrole, hopening, htrail⟩ := running_of_trail hturn
  obtain ⟨-, hresponse, -⟩ := ran_of_running horder hrole hopening
  rw [htrail] at hturn
  have hfinal := (Turn.runs_drive engine opened).final_of_ended hturn hprompts.round
  rw [hresponse]
  exact Turn.response_run (hfinal ▸ hprompts.outbox)

/-- A frame is marked after some exchanges if and only if it has been resumed and has neither asked
nor been handed to another flow since, and then it stands beneath a flow that it has called.  A
question is shown without the hint if and only if its frame is marked so at that moment.  Then the
response says that the flow goes on, unless the frame was marked when the exchange began. -/
theorem hint_left_out_iff_resumed (hguidance : engine.settings.guidance.enabled = true)
    (userId id : String) (exchanges : List Exchange) :
    let start := engine.startSession userId id
    let session := engine.after start exchanges
    (∀ place frame, session.levels.frameAt? place = some frame →
      (frame.justResumed = true ↔
        Beat.ResumedIn engine.library (engine.history start exchanges) place) ∧
      (frame.justResumed = true → ∃ upper, session.levels.StandsOn upper frame (place + 1))) ∧
    ∀ exchange, ∀ turn ∈ engine.trail session exchange, ∀ frame message,
      turn.session.levels.top? = some frame → turn.Prompts engine frame message →
        ∃ past place, past <+: engine.history start (exchanges ++ [exchange]) ∧
          Beats engine.library start.levels past turn.session.levels ∧
          turn.session.levels.frames.length = place + 1 ∧
          let text := turn.questionText engine frame message
          let hinted := (turn.stage engine).question false text
          hinted ≠ text ∧
          (¬Beat.ResumedIn engine.library past place →
            engine.response? session exchange =
              some (Session.joinMessages (turn.session.outbox ++ [hinted]))) ∧
          (Beat.ResumedIn engine.library past place →
            engine.response? session exchange =
              some (Session.joinMessages (turn.session.outbox ++ [text])) ∧
            (engine.notice .resuming [("flow", frame.flowName)] ∈ turn.session.outbox ∨
              ∃ older, session.levels.frameAt? place = some older ∧ older.justResumed = true ∧
                older.flowName = frame.flowName)) := by
  intro start session
  have hstart : engine.Reachable start := .start userId id
  have hsession : engine.Reachable session := hstart.after exchanges
  have hempty : start.levels.frames = [] := rfl
  have hhistory := history_follows engine hstart.inOrder exchanges
  refine ⟨fun place frame hframe => ⟨?_, ?_⟩, ?_⟩
  · exact hhistory.marked_iff (history_marks hstart exchanges) hempty hframe
  · exact hsession.topsUnmarked.standsOn hframe
  · intro exchange turn hturn frame message htop hprompts
    -- the frame that asks is the one on top of all others
    obtain ⟨place, hplace, hframe⟩ := Levels.exists_place_of_top? htop
    obtain ⟨past, hpast, hmoment⟩ := history_until hstart.inOrder exchanges hturn
    have hmarks : ∀ beat ∈ past, beat.Marks engine.library :=
      fun beat hbeat => history_marks hstart _ beat (hpast.subset hbeat)
    have hmarked := hmoment.marked_iff hmarks hempty hframe
    have hresponse := response_of_prompts hsession.inOrder hturn hprompts
    refine ⟨past, place, hpast, hmoment, hplace, Stage.question_ne hguidance _, ?_, ?_⟩
    · intro hasked
      have hunmarked : frame.justResumed = false := by
        rw [Bool.eq_false_iff]
        exact fun hresumed => hasked (hmarked.1 hresumed)
      rw [hresponse, hunmarked]
    · intro hresumed
      refine ⟨?_, announced_of_trail hsession hturn place frame hframe (hmarked.2 hresumed)⟩
      rw [hresponse, hmarked.2 hresumed, Turn.question_resumed]

end Engine

namespace Kiosk

/-- An engine that gives hints, with an order of which another flow asks the size, and news that
need no answer. -/
def guided : Engine :=
  { engine with
    settings := { engine.settings with guidance := ⟨true, .append⟩ }
    library := stocked [
      { flow "Order" "" "" with
        steps := [.ask "order" (.plain "Shall I order?") none, .callFlow "size" "Size" .call,
          .ask "name" (.plain "Your name?") (some "name")] },
      { flow "Size" "" "" with steps := [.ask "size" (.plain "Which size?") (some "size")] },
      { flow "News" "" "" with steps := [.say "news" (.plain "No news")] }] }

/-- The session after a guest has said some things there. -/
def guidedAfter (texts : List String) : Session :=
  guided.after (guided.startSession "guest" "kiosk") (texts.map guest)

/-- The text of the question that comes next, if the input is not taken for its answer. -/
def asking? (engine : Engine) (turn : Turn) : Option String :=
  match turn.task engine with
  | .dispatch frame (.ask _ message _) =>
    if turn.takes engine then none else some (turn.questionText engine frame message)
  | _ => none

/-- A question that comes next is asked. -/
theorem prompts_of_asking? {engine : Engine} {turn : Turn} {text : String}
    (horder : turn.session.InOrder) (h : asking? engine turn = some text) :
    ∃ frame message, turn.session.levels.top? = some frame ∧
      turn.Prompts engine frame message ∧ turn.questionText engine frame message = text := by
  unfold asking? at h
  split at h
  · rename_i frame id message receiver htask
    split at h
    · cases h
    · rename_i htakes
      obtain ⟨htop, hbudget, rest, hask⟩ := Turn.task_eq_dispatch.1 htask
      exact ⟨frame, message, htop, Turn.prompts_of_ask horder htop hask hbudget (by simpa using htakes),
        Option.some.inj h⟩
  · cases h

/-- A guest who has been told the news while ordering gives the size, and is asked for the name at
once. -/
theorem name_asked : ∃ turn ∈ guided.trail (guidedAfter ["Order", "News"]) (guest "large"),
    ∃ frame message, turn.session.levels.top? = some frame ∧ turn.Prompts guided frame message ∧
      turn.session.outbox = [] ∧ turn.questionText guided frame message = "Your name?" := by
  have hrounds : ((guided.trail (guidedAfter ["Order", "News"]) (guest "large")).any fun turn =>
      turn.session.outbox.isEmpty && asking? guided turn == some "Your name?") = true := by
    decide +kernel
  obtain ⟨turn, hturn, hround⟩ := List.any_eq_true.1 hrounds
  simp only [Bool.and_eq_true, List.isEmpty_iff, beq_iff_eq] at hround
  have hreachable : guided.Reachable (guidedAfter ["Order", "News"]) :=
    (Engine.Reachable.start "guest" "kiosk").after _
  obtain ⟨frame, message, htop, hprompts, htext⟩ := prompts_of_asking?
    (Engine.trail_inOrder hreachable.inOrder (guest "large") hturn) hround.2
  exact ⟨turn, hturn, frame, message, htop, hprompts, hround.1, htext⟩

theorem name_asked_alone :
    guided.response? (guidedAfter ["Order", "News"]) (guest "large") = some "Your name?" := by
  decide +kernel

/-- When the news have been told, the order is marked, beneath the flow that asks the size. -/
theorem order_marked : ∃ frame, (guidedAfter ["Order", "News"]).levels.frameAt? 0 = some frame ∧
    frame.justResumed = true := by
  have hmarked : ((guidedAfter ["Order", "News"]).levels.frameAt? 0).any Frame.justResumed =
      true := by decide +kernel
  simpa only [Option.any_eq_true] using hmarked

/-- The order goes on after the news and calls the flow that asks the size; it is marked until it
asks the name in the next turn, without the hint. -/
theorem mark_outlives_turn :
    (∃ frame upper, (guidedAfter ["Order", "News"]).levels.frameAt? 0 = some frame ∧
      Beat.ResumedIn guided.library (guided.history (guided.startSession "guest" "kiosk")
        (["Order", "News"].map guest)) 0 ∧
      (guidedAfter ["Order", "News"]).levels.StandsOn upper frame 1) ∧
    ∃ past place, past <+: guided.history (guided.startSession "guest" "kiosk")
        (["Order", "News"].map guest ++ [guest "large"]) ∧
      Beat.ResumedIn guided.library past place ∧
      guided.response? (guidedAfter ["Order", "News"]) (guest "large") = some "Your name?" := by
  have hguidance : guided.settings.guidance.enabled = true := rfl
  obtain ⟨hmarks, hquestions⟩ := Engine.hint_left_out_iff_resumed hguidance "guest" "kiosk"
    (["Order", "News"].map guest)
  obtain ⟨frame, hframe, hmarked⟩ := order_marked
  obtain ⟨turn, hturn, asking, message, htop, hprompts, hsilent, htext⟩ := name_asked
  constructor
  · obtain ⟨hresumed, hbeneath⟩ := hmarks 0 frame hframe
    obtain ⟨upper, hupper⟩ := hbeneath hmarked
    exact ⟨frame, upper, hframe, hresumed.1 hmarked, hupper⟩
  · obtain ⟨past, place, hpast, -, -, hdiffers, hhinted, -⟩ :=
      hquestions (guest "large") turn hturn asking message htop hprompts
    refine ⟨past, place, hpast, ?_, name_asked_alone⟩
    by_contra hasked
    have hresponse := name_asked_alone.symm.trans (hhinted hasked)
    rw [hsilent, List.nil_append, Session.joinMessages_singleton, htext] at hresponse
    rw [htext] at hdiffers
    exact hdiffers (Option.some.inj hresponse).symm

/-- The mark outlives the turn in which the order goes on, and the name is asked without the hint in
a response that does not say that the order goes on. -/
theorem name_asked_without_notice :
    (¬∀ exchanges, ∀ frame ∈
        (guided.after (guided.startSession "guest" "kiosk") exchanges).levels.frames,
      frame.justResumed = false) ∧
    ¬∀ exchanges exchange,
      let session := guided.after (guided.startSession "guest" "kiosk") exchanges
      ∀ turn ∈ guided.trail session exchange, ∀ frame message,
      turn.session.levels.top? = some frame → turn.Prompts guided frame message →
      guided.response? session exchange = some (Session.joinMessages
        (turn.session.outbox ++ [turn.questionText guided frame message])) →
      guided.notice .resuming [("flow", frame.flowName)] ∈ turn.session.outbox := by
  constructor
  · intro hunmarked
    obtain ⟨frame, hframe, hmarked⟩ := order_marked
    have hlive := List.mem_reverse.1 (List.mem_of_getElem? hframe)
    rw [hunmarked (["Order", "News"].map guest) frame hlive] at hmarked
    cases hmarked
  · intro hannounced
    obtain ⟨turn, hturn, frame, message, htop, hprompts, hsilent, htext⟩ := name_asked
    have hnotice := hannounced (["Order", "News"].map guest) (guest "large") turn hturn frame
      message htop hprompts
    rw [hsilent, List.nil_append, Session.joinMessages_singleton, htext] at hnotice
    cases hnotice name_asked_alone

end Kiosk

end Parley
