import Mathlib
import Parley.Proofs.Agreement
import Parley.Proofs.Beginnings

/-!
# Paused flows are not observed

Between the beginning of an exchange and the round in which its innermost level is
left, nothing depends on the variables of the flows below.  Those levels stay
where they are, so the frame that runs stands in none of their scopes, and two
turns that agree off these scopes go on in agreement.
-/

set_option autoImplicit false

namespace Parley

/-- A frame of these levels stands in the scope. -/
def Levels.UsedOn (below : List Level) (id : Nat) : Prop :=
  ∃ level ∈ below, ∃ frame ∈ level, frame.scope = id

theorem Levels.usedOn_iff {below : List Level} {id : Nat} :
    UsedOn below id ↔ ∃ scopes ∈ below.map (List.map Frame.scope), id ∈ scopes := by
  simp [UsedOn]

/-- The scope belongs to a flow that is paused: to one below the innermost level. -/
def Session.Paused (session : Session) : Nat → Prop :=
  Levels.UsedOn session.levels.suspended

namespace Turn

variable {engine : Engine} {turn : Turn} {below : List Level}

/-! ## Levels stay where they are -/

/-- A step leaves the levels below as they are, unless it leaves one of them or all. -/
theorem step_suspended (horder : turn.session.InOrder) :
    (turn.step engine).1.session.levels.suspended <:+ turn.session.levels.suspended := by
  have hmove := step_move engine horder
  generalize turn.step engine = result at hmove ⊢
  cases hmove with
  | idled hlevels => exact List.suffix_refl _
  | resumed frame callers deeper hlevels =>
      rw [hlevels]
      exact List.suffix_cons (frame :: callers) deeper
  | exhausted frame callers suspended hlevels hlimit => exact List.suffix_refl _
  | finished frame callers suspended hlevels hlimit hsteps =>
      rw [hlevels]
      exact List.suffix_refl suspended
  | performed frame callers suspended step rest vars outcome hlevels hlimit hsteps hvars heffect =>
      by_cases hrestart : ∃ flow, outcome.next = .ok (.restart flow)
      · obtain ⟨flow, hnext⟩ := hrestart
        obtain ⟨scene, next⟩ := outcome
        subst hnext
        rcases settle_restart turn.charged scene flow with ⟨hnone, -⟩ | ⟨f, others, hone, -⟩
        · rw [hnone]
          exact List.nil_suffix
        · rw [hone]
          exact List.nil_suffix
      · have hcharged : turn.charged.session.levels = ⟨frame :: callers, suspended⟩ := hlevels
        have hafter := levels_settle hcharged outcome fun flow hflow => hrestart ⟨flow, hflow⟩
        have hsame : (turn.charged.settle outcome).1.session.levels.suspended =
            turn.session.levels.suspended := by rw [hafter, hlevels]
        exact ⟨[], hsame⟩

theorem round_suspended {next : Turn} (horder : turn.session.InOrder)
    (h : turn.round engine = .onward next) :
    next.session.levels.suspended <:+ turn.session.levels.suspended := by
  have hstep : (turn.step engine).1.session.levels.suspended <:+
      turn.session.levels.suspended := step_suspended horder
  rcases round_onward h with hrunning | ⟨failed, error, hfailed, -, rfl⟩
  · rwa [hrunning] at hstep
  · -- giving up the innermost level leaves those below alone
    rwa [hfailed] at hstep

theorem ended_suspended {final : Turn} (horder : turn.session.InOrder)
    (h : turn.round engine = .ended final) :
    final.session.levels.suspended <:+ turn.session.levels.suspended := by
  have hstep : (turn.step engine).1.session.levels.suspended <:+
      turn.session.levels.suspended := step_suspended horder
  rcases round_ended h with hblocked | ⟨idle, hdone, rfl⟩ | ⟨failed, error, hfailed, -, rfl⟩
  · rwa [hblocked] at hstep
  · rw [hdone] at hstep
    rwa [(levels_concluded engine idle).1]
  · rwa [hfailed] at hstep

/-- A run leaves levels, or none, and opens none. -/
theorem Runs.suspended {rounds : List Turn} {final : Turn} (hrun : Runs engine turn rounds final)
    (horder : turn.session.InOrder) :
    final.session.levels.suspended <:+ turn.session.levels.suspended := by
  induction hrun with
  | last hended => exact ended_suspended horder hended
  | more honward hrest ih =>
      exact (ih (round_inOrder horder honward)).trans (round_suspended horder honward)

/-- Of the levels below, those at the bottom stay as long as there are so many. -/
theorem below_onward {next : Turn} (horder : turn.session.InOrder)
    (hbelow : below <:+ turn.session.levels.suspended) (h : turn.round engine = .onward next)
    (hcount : below.length < next.session.levels.count) :
    below <:+ next.session.levels.suspended := by
  have hnext := round_suspended horder h
  have hlength : below.length ≤ next.session.levels.suspended.length := by
    unfold Levels.count at hcount
    omega
  exact List.suffix_of_suffix_length_le hbelow hnext hlength

/-- The frame that runs shares no scope with those below. -/
theorem top_unused (horder : turn.session.InOrder)
    (hbelow : below <:+ turn.session.levels.suspended) {frame : Frame}
    (htop : turn.session.levels.top? = some frame) : ¬Levels.UsedOn below frame.scope := by
  rintro ⟨level, hlevel, other, hother, hscope⟩
  have hapart := (List.pairwise_cons.1 horder.wellScoped.apart).1 level (hbelow.subset hlevel)
  exact hapart frame (List.mem_of_head? htop) other hother hscope.symm

/-! ## Rounds in step -/

/-- Two rounds are the same but for the variables of the hidden scopes: they begin in agreement,
carry out the same task and leave turns that agree. -/
structure SameRound (engine : Engine) (hidden : Nat → Prop) (a b : Turn) : Prop where
  begins : a.AgreeOff hidden b
  task : b.task engine = a.task engine
  ends : (a.round engine).AgreeOff hidden (b.round engine)

/-- The rounds until there are fewer levels than a number. -/
def above (count : Nat) (rounds : List Turn) : List Turn :=
  rounds.takeWhile fun turn => count ≤ turn.session.levels.count

theorem above_cons_of_le {count : Nat} {rounds : List Turn}
    (h : count ≤ turn.session.levels.count) :
    above count (turn :: rounds) = turn :: above count rounds :=
  List.takeWhile_cons_of_pos (by simpa using h)

theorem above_cons_of_lt {count : Nat} {rounds : List Turn}
    (h : turn.session.levels.count < count) : above count (turn :: rounds) = [] :=
  List.takeWhile_cons_of_neg (by simpa using h)

/-- The rounds end at once if there are too few levels from the start. -/
theorem Runs.above_nil {count : Nat} {rounds : List Turn} {final : Turn}
    (hrun : Runs engine turn rounds final) (h : turn.session.levels.count < count) :
    above count rounds = [] ∧ rounds ≠ [] := by
  cases hrun with
  | last hended => exact ⟨above_cons_of_lt h, List.cons_ne_nil _ _⟩
  | more honward hrest => exact ⟨above_cons_of_lt h, List.cons_ne_nil _ _⟩

/-- Two turns that agree off the scopes below run in step until the level above is left. -/
theorem Runs.inStep {a b final last : Turn} {rounds others : List Turn}
    (hrun : Runs engine a rounds final) (hother : Runs engine b others last)
    (hagree : a.AgreeOff (Levels.UsedOn below) b) (horder : a.session.InOrder)
    (hbelow : below <:+ a.session.levels.suspended) :
    List.Forall₂ (SameRound engine (Levels.UsedOn below)) (above (below.length + 1) rounds)
        (above (below.length + 1) others) ∧
      (above (below.length + 1) rounds = rounds →
        above (below.length + 1) others = others ∧ final.AgreeOff (Levels.UsedOn below) last) := by
  induction hrun generalizing b others last with
  | @last a final hended =>
      have hopen : below.length + 1 ≤ a.session.levels.count :=
        Nat.succ_le_succ hbelow.length_le
      have hround := hagree.round engine fun frame htop => top_unused horder hbelow htop
      have hsame : SameRound engine (Levels.UsedOn below) a b :=
        ⟨hagree, hagree.task engine, hround⟩
      rw [hended] at hround
      generalize hb : b.round engine = round at hround
      cases hround with
      | ended hfinal =>
          obtain ⟨rfl, rfl⟩ := hother.of_ended hb
          have hopen' : below.length + 1 ≤ b.session.levels.count := by rwa [hagree.levels]
          rw [above_cons_of_le hopen, above_cons_of_le hopen']
          exact ⟨.cons hsame .nil, fun _ => ⟨rfl, hfinal⟩⟩
  | @more a next final later honward hrest ih =>
      have hopen : below.length + 1 ≤ a.session.levels.count :=
        Nat.succ_le_succ hbelow.length_le
      have hopen' : below.length + 1 ≤ b.session.levels.count := by rwa [hagree.levels]
      have hround := hagree.round engine fun frame htop => top_unused horder hbelow htop
      have hsame : SameRound engine (Levels.UsedOn below) a b :=
        ⟨hagree, hagree.task engine, hround⟩
      rw [honward] at hround
      cases hother with
      | last hended =>
          rw [hended] at hround
          cases hround
      | more hb hrest' =>
          rw [hb] at hround
          cases hround with
          | onward hnext =>
              rw [above_cons_of_le hopen, above_cons_of_le hopen']
              by_cases hcount : below.length < next.session.levels.count
              · obtain ⟨hrounds, hend⟩ := ih hrest' hnext (round_inOrder horder honward)
                  (below_onward horder hbelow honward hcount)
                refine ⟨.cons hsame hrounds, ?_⟩
                intro hall
                obtain ⟨hothers, hfinal⟩ := hend (List.cons.inj hall).2
                exact ⟨congrArg (b :: ·) hothers, hfinal⟩
              · -- the level is left in this round, by both
                have hclosed : next.session.levels.count < below.length + 1 := by omega
                obtain ⟨hnone, hlater⟩ := hrest.above_nil hclosed
                obtain ⟨hnone', -⟩ := hrest'.above_nil (by rwa [hnext.levels])
                rw [hnone, hnone']
                refine ⟨.cons hsame .nil, ?_⟩
                intro hall
                exact absurd (List.cons.inj hall).2.symm hlater

end Turn

namespace Engine

variable {engine : Engine} {a b : Session}

/-- The rounds of an exchange until its innermost level has been left. -/
def roundsAbove (engine : Engine) (session : Session) (exchange : Exchange) : List Turn :=
  Turn.above session.levels.count (engine.trail session exchange)

/-- Both entries are refused for the same reason, or both are taken with the same response and leave
sessions that agree; what happened outside is the same. -/
inductive SameUpdate (hidden : Nat → Prop) :
    Journal × Except EngineError (Option String × Session) →
    Journal × Except EngineError (Option String × Session) → Prop where
  | refused (journal : Journal) (error : EngineError) :
      SameUpdate hidden (journal, .error error) (journal, .error error)
  | taken (journal : Journal) (response : Option String) {a b : Session}
      (h : a.AgreeOff hidden b) :
      SameUpdate hidden (journal, .ok (response, a)) (journal, .ok (response, b))

theorem SameUpdate.next {hidden : Nat → Prop} (hagree : a.AgreeOff hidden b) {exchange : Exchange}
    (h : SameUpdate hidden (engine.update exchange.journal a exchange.entry)
      (engine.update exchange.journal b exchange.entry)) :
    (engine.next a exchange).AgreeOff hidden (engine.next b exchange) := by
  unfold Engine.next
  generalize engine.update exchange.journal a exchange.entry = left at h ⊢
  generalize engine.update exchange.journal b exchange.entry = right at h ⊢
  cases h with
  | refused journal error => exact hagree
  | taken journal response hsessions => exact hsessions

theorem update_of_user {exchange : Exchange} {session : Session} (horder : session.InOrder)
    (hrole : exchange.entry.role = .user) {opening : Opening}
    (hopening : engine.opening exchange.journal session exchange.entry = opening) :
    engine.update exchange.journal session exchange.entry =
      ((opening.finish engine).1.journal,
        .ok ((opening.finish engine).2, (opening.finish engine).1.session)) := by
  simp only [update, hrole, horder.danglingFrame?, respond, hopening]

theorem trail_of_answered {exchange : Exchange} {session : Session}
    (horder : session.InOrder) (hrole : exchange.entry.role = .user) {turn : Turn}
    {response : Option String}
    (hopening : engine.opening exchange.journal session exchange.entry = .answered turn response) :
    engine.trail session exchange = [] := by
  simp [trail, opening?, hrole, horder.danglingFrame?, hopening]

/-- Two sessions that agree off the scopes below the levels on which a turn begins go through the
same rounds until these levels are left, and if they are not, come to the same end. -/
theorem running_inStep {below : List Level} (ha : a.InOrder) (hb : b.InOrder)
    (hagree : a.AgreeOff (Levels.UsedOn below) b) {exchange : Exchange}
    (hrole : exchange.entry.role = .user) {turn : Turn}
    (hopening : engine.opening exchange.journal a exchange.entry = .running turn)
    (hbelow : below <:+ turn.session.levels.suspended) :
    List.Forall₂ (Turn.SameRound engine (Levels.UsedOn below))
        (Turn.above (below.length + 1) (engine.trail a exchange))
        (Turn.above (below.length + 1) (engine.trail b exchange)) ∧
      (Turn.above (below.length + 1) (engine.trail a exchange) = engine.trail a exchange →
        Turn.above (below.length + 1) (engine.trail b exchange) = engine.trail b exchange ∧
          SameUpdate (Levels.UsedOn below) (engine.update exchange.journal a exchange.entry)
            (engine.update exchange.journal b exchange.entry)) := by
  have hopenings := hagree.opening engine exchange.journal exchange.entry
  generalize hopeningb : engine.opening exchange.journal b exchange.entry = opening at hopenings
  rw [hopening] at hopenings
  cases hopenings with
  | @running turn other hturns =>
      obtain ⟨-, -, htrail⟩ := ran_of_running ha hrole hopening
      obtain ⟨-, -, htrail'⟩ := ran_of_running hb hrole hopeningb
      have horder := opening_inOrder engine ha hrole
      rw [hopening] at horder
      have hrun := Turn.runs_drive engine turn
      have hother := Turn.runs_drive engine other
      obtain ⟨hrounds, hend⟩ := hrun.inStep hother hturns horder hbelow
      rw [htrail, htrail']
      refine ⟨hrounds, fun hall => ?_⟩
      obtain ⟨hothers, hfinal⟩ := hend hall
      refine ⟨hothers, ?_⟩
      obtain ⟨hsession, hresponse⟩ := hfinal.session.collectScopes.flush
      rw [update_of_user ha hrole hopening, update_of_user hb hrole hopeningb]
      simp only [Opening.finish, Turn.run, Turn.withSession, hresponse, hfinal.journal]
      exact .taken _ _ hsession

/-- Interrupting flows cannot observe the flows that are paused: two sessions that differ only in
the variables of paused flows go through the same rounds until the innermost level has been left,
and if it is not left, they have the same response and what happens outside is the same. -/
theorem paused_unobserved (ha : engine.Reachable a) (hb : engine.Reachable b)
    (hagree : a.AgreeOff a.Paused b) (exchange : Exchange) :
    List.Forall₂ (Turn.SameRound engine a.Paused) (engine.roundsAbove a exchange)
        (engine.roundsAbove b exchange) ∧
      (engine.roundsAbove a exchange = engine.trail a exchange →
        engine.roundsAbove b exchange = engine.trail b exchange ∧
          SameUpdate a.Paused (engine.update exchange.journal a exchange.entry)
            (engine.update exchange.journal b exchange.entry)) := by
  cases hrole : exchange.entry.role with
  | user =>
      cases hopening : engine.opening exchange.journal a exchange.entry with
      | answered turn response =>
          have hopenings := hagree.opening engine exchange.journal exchange.entry
          generalize hopeningb : engine.opening exchange.journal b exchange.entry = opening
            at hopenings
          rw [hopening] at hopenings
          cases hopenings with
          | @answered turn other response hturns =>
              have hnone := trail_of_answered ha.inOrder hrole hopening
              have hnone' := trail_of_answered hb.inOrder hrole hopeningb
              simp only [roundsAbove, hnone, hnone']
              refine ⟨.nil, fun _ => ⟨rfl, ?_⟩⟩
              rw [update_of_user ha.inOrder hrole hopening,
                update_of_user hb.inOrder hrole hopeningb]
              simp only [Opening.finish, hturns.journal]
              exact .taken _ _ hturns.session
      | running turn =>
          have hbelow := (opening_begun hrole hopening).suspended
          have hsteps := running_inStep ha.inOrder hb.inOrder hagree hrole hopening hbelow
          simp only [roundsAbove, hagree.levels]
          exact hsteps
  | assistant =>
      have hnone : ∀ session, engine.trail session exchange = [] := by
        intro session
        simp [trail, opening?, hrole]
      simp only [roundsAbove, hnone, update, hrole]
      exact ⟨.nil, fun _ => ⟨rfl, .taken _ _ (hagree.note exchange.entry)⟩⟩
  | tool | system =>
      have hnone : ∀ session, engine.trail session exchange = [] := by
        intro session
        simp [trail, opening?, hrole]
      simp only [roundsAbove, hnone, update, hrole]
      exact ⟨.nil, fun _ => ⟨rfl, .refused _ _⟩⟩

end Engine

/-! ## Two orders at different times -/

namespace Kiosk

/-- A flow that notes the time before it asks. -/
def timed : Definition :=
  { flow "Order" "Which size?" "size" with
    steps := [.set "note" "time" (.str "\x7b\x7bcurrentTime\x7d\x7d"),
      .ask "question" (.plain "Which size?") (some "size"), .say "thanks" (.plain "Thanks")] }

/-- An engine with such a flow, which tells the time by the journal. -/
def counter : Engine :=
  { engine with
    library := stocked [timed, flow "Weather" "Which city?" "city"]
    now := fun journal => Decimal.text journal.clock }

/-- The wish of a guest at some time. -/
def wishAt (clock : Nat) : Exchange :=
  ⟨⟨clock, [], []⟩, ⟨.user, "Order"⟩⟩

/-- The frame of the flow at its beginning. -/
def seated : Frame :=
  .start timed 0 (.start "Order" "user" "guest")

/-- The frame after the first step. -/
def noted : Frame :=
  { seated.log (StepRecord.plain "note" StepKind.set.name .success).redacted with
    steps := timed.steps.tail }

/-- The frame while it waits for the answer. -/
def asked : Frame :=
  { noted.record (.assistant "Which size?") with
    lastMessage := some "Which size?"
    pendingVariable := some "size" }

/-- The session of the guest with the flow in progress. -/
def served (frame : Frame) (vars : Fields) : Session :=
  { (counter.startSession "guest" "counter").hear ⟨.user, "Order"⟩ with
    levels := ⟨[frame], []⟩
    scopes := ⟨1, [(0, vars)]⟩ }

/-- The turn of the guest after some steps. -/
def turnAt (clock taken : Nat) (frame : Frame) (vars : Fields) : Turn :=
  ⟨served frame vars, none, taken,
    ⟨clock, [⟨Intent.instruction counter.library none, "Order"⟩], []⟩⟩

theorem opening_wish (clock : Nat) :
    counter.opening (wishAt clock).journal (counter.startSession "guest" "counter")
      (wishAt clock).entry = .running (turnAt clock 0 seated []) := by
  have hasked : counter.ask ⟨clock, [], []⟩ ⟨Intent.instruction counter.library none, "Order"⟩ =
      (⟨clock, [⟨Intent.instruction counter.library none, "Order"⟩], []⟩,
        .ok "\x7b\"flow\": \"Order\", \"strength\": \"strong\"\x7d") := rfl
  have hreply : (Reply.value? "\x7b\"flow\": \"Order\", \"strength\": \"strong\"\x7d").map
      Intent.replyDecoder = some (.ok (some "Order", .strong)) := by
    cbv
  have hfound : counter.library.get? "Order" = some timed := rfl
  have hintent : Intent.ofReply? counter.library
      "\x7b\"flow\": \"Order\", \"strength\": \"strong\"\x7d" = some ⟨timed, .strong⟩ := by
    simp only [Intent.ofReply?, hreply, hfound, Option.map_some]
  have hclassified : Intent.classify counter ⟨clock, [], []⟩ "Order" none =
      (⟨clock, [⟨Intent.instruction counter.library none, "Order"⟩], []⟩,
        some ⟨timed, .strong⟩) := by
    unfold Intent.classify
    rw [hasked]
    simp only [hintent]
  have hwelcome : counter.opening (wishAt clock).journal (counter.startSession "guest" "counter")
      (wishAt clock).entry =
        (Engine.heard (counter.startSession "guest" "counter") (wishAt clock)).welcome counter
          "Order" := rfl
  rw [hwelcome]
  simp only [Turn.welcome, Engine.heard, Turn.start, wishAt]
  rw [hclassified]
  rfl

/-- The time is noted in the scope and nowhere else. -/
theorem round_note (clock : Nat) :
    (turnAt clock 0 seated []).round counter =
      .onward (turnAt clock 1 noted [("time", .str (Decimal.text clock))]) := by
  have htime : ∀ now, counter.evaluator.resolve
      ⟨[], ⟨"guest", "counter", "Order", counter.settings.language, now⟩⟩
        (.str "\x7b\x7bcurrentTime\x7d\x7d") = .str now := by
    intro now
    show Evaluator.resolve ⟨10⟩ ⟨[], ⟨"guest", "counter", "Order", "en", now⟩⟩ _ = _
    cbv
  have hstep : (turnAt clock 0 seated []).step counter =
      (turnAt clock 1 noted [("time", .str (Decimal.text clock))], .ok .running) := by
    -- with the value put back as it is computed, both sides unfold to the same turn
    rw [← htime (Decimal.text clock)]
    rfl
  rw [Turn.round, hstep]

/-- The question is the same whatever the scope holds. -/
theorem round_question (clock : Nat) (vars : Fields) :
    (turnAt clock 1 noted vars).round counter =
      .ended ((turnAt clock 2 asked vars).tell
        ((Stage.mk counter "guest" "counter" 1).question false "Which size?")) := by
  have hplain : Template.hasOpening "Which size?".toList = false := by decide
  have hwording : ∀ stage scene,
      Stage.wordingIn stage scene (.plain "Which size?") = "Which size?" := by
    intro stage scene
    have hbase : Wording.forLanguage (.plain "Which size?") stage.engine.settings.language =
        "Which size?" := rfl
    simp only [Stage.wordingIn, Stage.render, Evaluator.interpolate, hbase, hplain,
      Bool.false_eq_true, if_false]
  have hprompt : (turnAt clock 1 noted vars).step counter =
      (turnAt clock 2 noted vars).settle
        (((turnAt clock 2 noted vars).stage counter).prompt "question" (.plain "Which size?")
          (some "size") ((turnAt clock 2 noted vars).scene noted vars)) := rfl
  have hstep : (turnAt clock 1 noted vars).step counter =
      ((turnAt clock 2 asked vars).tell
        ((Stage.mk counter "guest" "counter" 1).question false "Which size?"), .ok .blocked) := by
    rw [hprompt]
    unfold Stage.prompt
    rw [hwording]
    rfl
  rw [Turn.round, hstep]

/-- After the wish, the session tells the time of the wish by a variable of the flow only. -/
theorem next_wish (clock : Nat) :
    counter.next (counter.startSession "guest" "counter") (wishAt clock) =
      served asked [("time", .str (Decimal.text clock))] := by
  have hreachable : counter.Reachable (counter.startSession "guest" "counter") :=
    .start "guest" "counter"
  obtain ⟨hnext, -, -⟩ := Engine.ran_of_running hreachable.inOrder rfl (opening_wish clock)
  have hrun := Turn.runs_drive counter (turnAt clock 0 seated [])
  have hdrive : (turnAt clock 0 seated []).drive counter =
      (turnAt clock 2 asked [("time", .str (Decimal.text clock))]).tell
        ((Stage.mk counter "guest" "counter" 1).question false "Which size?") := by
    generalize Turn.trail counter _ = rounds at hrun
    generalize Turn.drive counter _ = final at hrun ⊢
    cases hrun with
    | last hended =>
        rw [round_note] at hended
        cases hended
    | more honward hrest =>
        rw [round_note] at honward
        cases honward
        exact (hrest.of_ended (round_question clock _)).2
  rw [hnext, Turn.run, hdrive]
  generalize Decimal.text clock = time
  rfl

/-- The session when the guest has asked for the weather in the meantime. -/
def distracted (clock : Nat) : Session :=
  counter.next (counter.next (counter.startSession "guest" "counter") (wishAt clock))
    (guest "Weather")

theorem reachable_distracted (clock : Nat) : counter.Reachable (distracted clock) :=
  ((Engine.Reachable.start "guest" "counter").next _).next _

/-- The variable with the time is in the scope of the flow that is paused. -/
theorem distracted_agree : (distracted 0).AgreeOff (distracted 0).Paused (distracted 1) := by
  have hwish : ∀ clock, (served asked [("time", .str (Decimal.text clock))]).InOrder := by
    intro clock
    rw [← next_wish]
    exact ((Engine.Reachable.start "guest" "counter").next _).inOrder
  have hbelow : (match counter.opening (guest "Weather").journal
      (served asked [("time", .str (Decimal.text 0))]) (guest "Weather").entry with
    | .running turn => turn.session.levels.suspended.map (List.map Frame.scope)
    | .answered _ _ => []) = [[0]] := by decide +kernel
  have habove : ∀ turn ∈ counter.trail (served asked [("time", .str (Decimal.text 0))])
      (guest "Weather"), decide (2 ≤ turn.session.levels.count) = true :=
    List.all_eq_true.1 (by decide +kernel)
  have hpaused : (distracted 0).levels.suspended.map (List.map Frame.scope) = [[0]] := by
    unfold distracted
    rw [next_wish]
    decide +kernel
  cases hopening : counter.opening (guest "Weather").journal
      (served asked [("time", .str (Decimal.text 0))]) (guest "Weather").entry with
  | answered turn response =>
      rw [hopening] at hbelow
      cases hbelow
  | running turn =>
      rw [hopening] at hbelow
      simp only at hbelow
      have hlength : turn.session.levels.suspended.length = 1 := by
        simpa using congrArg List.length hbelow
      -- when the weather comes up, the flow that noted the time is not paused yet but will be
      have hsame : (served asked [("time", .str (Decimal.text 0))]).AgreeOff
          (Levels.UsedOn turn.session.levels.suspended)
          (served asked [("time", .str (Decimal.text 1))]) := by
        refine .intro ⟨1, [(0, [("time", .str (Decimal.text 1))])]⟩ ⟨rfl, ?_⟩
        intro id hvisible
        have hother : id ≠ 0 := by simpa [Levels.usedOn_iff, hbelow] using hvisible
        simp [served, Scopes.get?, Table.get?, hother.symm]
      obtain ⟨-, hend⟩ := Engine.running_inStep (hwish 0) (hwish 1) hsame rfl hopening
        (List.suffix_refl _)
      rw [hlength] at hend
      obtain ⟨-, hupdate⟩ := hend (List.takeWhile_eq_self_iff.2 habove)
      have hscope : Levels.UsedOn turn.session.levels.suspended = (distracted 0).Paused := by
        funext id
        simp only [Session.Paused, Levels.usedOn_iff, hbelow, hpaused]
      have hagree := hupdate.next hsame
      rw [hscope, ← next_wish, ← next_wish] at hagree
      exact hagree

/-- The time of the wish cannot be told from what the guest hears about the weather. -/
theorem wish_unobserved :
    (distracted 0).AgreeOff (distracted 0).Paused (distracted 1) ∧
      (distracted 1).scopes.get? 0 ≠ (distracted 0).scopes.get? 0 ∧
      counter.roundsAbove (distracted 0) (guest "Paris") ≠ [] ∧
      List.Forall₂ (Turn.SameRound counter (distracted 0).Paused)
        (counter.roundsAbove (distracted 0) (guest "Paris"))
        (counter.roundsAbove (distracted 1) (guest "Paris")) := by
  have htime : ((distracted 0).scopes.get? 0).bind (fun vars => (Table.get? "time" vars).map
      Json.display) = some "0" := by
    unfold distracted
    rw [next_wish]
    decide +kernel
  have htime' : ((distracted 1).scopes.get? 0).bind (fun vars => (Table.get? "time" vars).map
      Json.display) = some "1" := by
    unfold distracted
    rw [next_wish]
    decide +kernel
  have hrounds : (counter.roundsAbove (distracted 0) (guest "Paris")).isEmpty = false := by
    unfold distracted
    rw [next_wish]
    decide +kernel
  refine ⟨distracted_agree, ?_, ?_, ?_⟩
  · intro hsame
    rw [hsame, htime] at htime'
    exact absurd htime' (by decide)
  · intro hnone
    rw [hnone] at hrounds
    cases hrounds
  · exact (Engine.paused_unobserved (reachable_distracted 0) (reachable_distracted 1)
      distracted_agree (guest "Paris")).1

end Kiosk

end Parley
