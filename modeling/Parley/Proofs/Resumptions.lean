import Mathlib.Data.List.Induction
import Parley.Proofs.RoundTrip

/-!
# Interrupted flows and the budget

When a level ends, the flow that it had interrupted goes on in the same turn.  Only a
turn that uses up its budget breaks this: it stops as soon as the level is given up,
and the flow below waits on a level that nobody runs.
-/

set_option autoImplicit false

namespace Parley

/-- The session has a frame that runs and whose transaction is active, or nothing at all is in
progress. -/
def Session.Attended (session : Session) : Prop :=
  (∃ frame, session.levels.top? = some frame ∧ frame.transaction.state = .active) ∨
    session.levels = .empty

/-- The turn to which a round leads. -/
def Turn.Round.turn : Turn.Round → Turn
  | onward turn => turn
  | ended turn => turn

namespace Session

variable {session before after : Session}

/-- In a session in order every frame that runs has an active transaction. -/
theorem attended_iff (horder : session.InOrder) :
    session.Attended ↔ session.levels.current ≠ [] ∨ session.levels.suspended = [] := by
  rcases hlevels : session.levels with ⟨current, suspended⟩
  cases current with
  | nil => simp [Attended, hlevels, Levels.top?, Levels.empty]
  | cons frame callers =>
      have hactive := horder.wellAccounted.running frame (by simp [hlevels])
      simp [Attended, hlevels, Levels.top?, hactive]

/-- What only touches a session neither attends to it nor strands it. -/
theorem Touched.attended_iff (h : before.Touched after) : after.Attended ↔ before.Attended := by
  rcases hlevels : before.levels with ⟨current, suspended⟩
  cases current with
  | nil =>
      have hafter := h.levels_eq_of_nil hlevels
      simp [Attended, hlevels, hafter]
  | cons frame callers =>
      obtain ⟨frame', halike, hafter⟩ := h.levels_eq hlevels
      simp [Attended, hlevels, hafter, Levels.top?, Levels.empty, halike.transaction]

end Session

namespace Turn

variable {engine : Engine} {turn : Turn}

/-! ## The end of a turn -/

/-- A step that waits for an answer leaves the frame that asks. -/
theorem current_of_blocked {outcome : Outcome} {frame : Frame} {callers : Level}
    {suspended : List Level} (hlevels : turn.session.levels = ⟨frame :: callers, suspended⟩)
    (h : (turn.settle outcome).2 = .ok .blocked) :
    (turn.settle outcome).1.session.levels.current ≠ [] := by
  have hawait := settle_blocked h
  rw [levels_settle hlevels outcome (by simp [hawait]), hawait]
  exact List.cons_ne_nil _ _

/-- A round that ends the turn without using up the budget leaves the session attended. -/
theorem attended_of_ended {final : Turn} (horder : turn.session.InOrder)
    (hround : turn.round engine = .ended final) (hbudget : turn.exhausts engine = false) :
    final.session.Attended := by
  rw [Session.attended_iff (ended_inOrder horder hround)]
  have hmove := step_move engine horder
  rcases round_ended hround with hblocked | ⟨idle, hdone, rfl⟩ | ⟨failed, error, hfailed, he, rfl⟩
  · rw [hblocked] at hmove
    generalize hresult : ((final, .ok .blocked) : Turn × Except EngineError Progress) = result
      at hmove
    cases hmove with
    | idled hlevels => cases hresult
    | resumed frame callers below hlevels => cases hresult
    | exhausted frame callers suspended hlevels hlimit => cases hresult
    | finished frame callers suspended hlevels hlimit hsteps => cases hresult
    | performed frame callers suspended step rest vars outcome hlevels hlimit hsteps hvars
        heffect =>
        have hcharged : turn.charged.session.levels = ⟨frame :: callers, suspended⟩ := hlevels
        have hcurrent := current_of_blocked hcharged (congrArg Prod.snd hresult).symm
        rw [← hresult] at hcurrent
        exact .inl hcurrent
  · rw [(levels_concluded engine idle).1, levels_of_done horder hdone]
    exact .inr rfl
  · simp [exhausts, hfailed, he] at hbudget

/-- A round that uses up the budget ends the turn, and of the levels it leaves those below the
innermost one. -/
theorem ended_of_exhausts (horder : turn.session.InOrder) (h : turn.exhausts engine = true) :
    ∃ final, turn.round engine = .ended final ∧
      final.session.levels = ⟨[], turn.session.levels.suspended⟩ := by
  have hround : ∀ {failed : Turn} {error : EngineError},
      turn.step engine = (failed, .error error) → error.isBudget = true →
      turn.round engine = .ended (failed.abort engine error) := by
    intro failed error hstep hbudget
    simp [round, hstep, hbudget]
  have hmove := step_move engine horder
  unfold exhausts at h
  generalize hstep : turn.step engine = result at hmove h
  cases hmove with
  | idled hlevels => cases h
  | resumed frame callers below hlevels => cases h
  | exhausted frame callers suspended hlevels hlimit =>
      refine ⟨_, hround hstep rfl, ?_⟩
      rfl
  | finished frame callers suspended hlevels hlimit hsteps => cases h
  | performed frame callers suspended step rest vars outcome hlevels hlimit hsteps hvars heffect =>
      -- the errors of a step itself are others
      cases heffect with
      | failed error hkind herror hkept =>
          rcases herror with ⟨limit, rfl⟩ | ⟨kind, detail, rfl⟩
          · cases h
          · cases h
      | rebooted after id key flow hreboot hflow hafter hinput =>
          cases flow <;> cases h
      | _ => cases h

/-- A turn ends with its session attended unless its last round uses up the budget above a level
that was interrupted. -/
theorem attended_drive (horder : turn.session.InOrder) {last : Turn}
    (hlast : last.session.InOrder) (hended : last.round engine = .ended (turn.drive engine)) :
    (turn.drive engine).session.Attended ↔
      ¬(last.exhausts engine = true ∧ last.session.levels.suspended ≠ []) := by
  cases hbudget : last.exhausts engine with
  | false => simp [attended_of_ended hlast hended hbudget]
  | true =>
      obtain ⟨final, hfinal, hlevels⟩ := ended_of_exhausts hlast hbudget
      rw [hended] at hfinal
      cases hfinal
      rw [Session.attended_iff ((runs_drive engine turn).inOrder horder).2, hlevels]
      simp

namespace Runs

variable {trail : List Turn} {final : Turn}

theorem getLast (hrun : Runs engine turn trail final) :
    ∃ last, trail.getLast? = some last ∧ last.round engine = .ended final := by
  induction hrun with
  | last hended => exact ⟨_, rfl, hended⟩
  | more honward hrest ih =>
      obtain ⟨last, hlast, hended⟩ := ih
      exact ⟨last, by rw [List.getLast?_cons, hlast]; rfl, hended⟩

theorem followed (hrun : Runs engine turn trail final) {round next : Turn} (hround : round ∈ trail)
    (honward : round.round engine = .onward next) : [round, next] <:+: trail := by
  induction hrun with
  | last hended =>
      obtain rfl := List.mem_singleton.1 hround
      cases honward.symm.trans hended
  | @more turn second final later hfirst hrest ih =>
      rcases List.mem_cons.1 hround with rfl | hlater
      · cases honward.symm.trans hfirst
        refine List.IsPrefix.isInfix ?_
        cases hrest with
        | last hended => exact List.prefix_rfl
        | more hsecond hmore => exact ⟨_, rfl⟩
      · exact (ih hlater).trans (List.suffix_cons turn later).isInfix

end Runs

/-! ## The way back -/

/-- If the innermost level has no frames, the next thing a turn does is to go on with the level
below. -/
theorem round_resumes (horder : turn.session.InOrder) {frame : Frame} {callers : Level}
    {below : List Level} (hlevels : turn.session.levels = ⟨[], (frame :: callers) :: below⟩) :
    turn.round engine = .onward (turn.resumedAt engine frame callers below) := by
  have hmove := step_move engine horder
  generalize hstep : turn.step engine = result at hmove
  have hdiffer : ∀ {other : Frame} {others : Level} {suspended : List Level},
      turn.session.levels ≠ ⟨other :: others, suspended⟩ := by
    intro other others suspended h
    cases hlevels.symm.trans h
  cases hmove with
  | idled hempty => cases hlevels.symm.trans hempty
  | resumed other others below' hother =>
      cases hlevels.symm.trans hother
      simp [round, hstep]
  | exhausted other others suspended hother hlimit => exact absurd hother hdiffer
  | finished other others suspended hother hlimit hsteps => exact absurd hother hdiffer
  | performed other others suspended step rest vars outcome hother hlimit hsteps hvars heffect =>
      exact absurd hother hdiffer

/-- A round that does not use up the budget and leaves a level without frames above another is not
the last one. -/
theorem onward_of_vacant (horder : turn.session.InOrder) (hbudget : turn.exhausts engine = false)
    {level : Level} {below : List Level}
    (hlevels : (turn.round engine).turn.session.levels = ⟨[], level :: below⟩) :
    turn.round engine = .onward (turn.round engine).turn := by
  cases hround : turn.round engine with
  | onward next => rfl
  | ended final =>
      have hattended := attended_of_ended horder hround hbudget
      rw [hround] at hlevels
      have hfinal : final.session.levels = ⟨[], level :: below⟩ := hlevels
      rw [Session.attended_iff (ended_inOrder horder hround), hfinal] at hattended
      simp at hattended

end Turn

namespace Engine

variable {engine : Engine} {session : Session} {exchange : Exchange}

/-- The last round of an exchange uses up the budget above a level that was interrupted. -/
def CutShort (engine : Engine) (session : Session) (exchange : Exchange) : Prop :=
  ∃ last, (engine.trail session exchange).getLast? = some last ∧
    last.exhausts engine = true ∧ last.session.levels.suspended ≠ []

/-- An exchange that makes nothing run leaves a session as attended as it was; any other leaves it
attended unless it is cut short. -/
theorem attended_next (engine : Engine) (horder : session.InOrder) (exchange : Exchange) :
    (engine.trail session exchange = [] →
      ((engine.next session exchange).Attended ↔ session.Attended)) ∧
    (engine.trail session exchange ≠ [] →
      ((engine.next session exchange).Attended ↔ ¬engine.CutShort session exchange)) := by
  have hcourse := engine.course session exchange
  have hinOrder : exchange.entry.role = .user →
      (engine.opening exchange.journal session exchange.entry).turn.session.InOrder :=
    opening_inOrder engine horder
  unfold CutShort
  generalize engine.next session exchange = after at hcourse ⊢
  generalize engine.response? session exchange = response at hcourse
  generalize engine.trail session exchange = rounds at hcourse ⊢
  cases hcourse with
  | refused => exact ⟨fun _ => Iff.rfl, fun h => absurd rfl h⟩
  | noted hrole =>
      exact ⟨fun _ => (Session.touched_note _ _).attended_iff, fun h => absurd rfl h⟩
  | answered turn response hrole hopening =>
      exact ⟨fun _ => (opening_answered hrole hopening).attended_iff, fun h => absurd rfl h⟩
  | ran turn hrole hopening =>
      have hopened := hinOrder hrole
      rw [hopening] at hopened
      have hruns := Turn.runs_drive engine turn
      obtain ⟨last, hlast, hended⟩ := hruns.getLast
      have hordered := (hruns.inOrder hopened).1 last (List.mem_of_getLast? hlast)
      obtain ⟨hlevels, -⟩ := Turn.session_run engine turn
      refine ⟨fun h => ?_, fun _ => ?_⟩
      · obtain ⟨later, hlater⟩ := Turn.trail_eq engine turn
        rw [h] at hlater
        cases hlater
      · simp only [Session.Attended, hlevels]
        refine (Turn.attended_drive hopened hordered hended).trans ?_
        simp [hlast]

/-- The last of the exchanges that made something run was cut short. -/
def EndsCutShort (engine : Engine) (session : Session) (exchanges : List Exchange) : Prop :=
  ∃ before exchange later, exchanges = before ++ exchange :: later ∧
    engine.CutShort (engine.after session before) exchange ∧
    engine.trails (engine.after session (before ++ [exchange])) later = []

theorem after_append (engine : Engine) (session : Session) (before later : List Exchange) :
    engine.after session (before ++ later) = engine.after (engine.after session before) later :=
  List.foldl_append

theorem trails_append (engine : Engine) (session : Session) (before later : List Exchange) :
    engine.trails session (before ++ later) =
      engine.trails session before ++ engine.trails (engine.after session before) later := by
  induction before generalizing session with
  | nil => rfl
  | cons exchange before ih =>
      simp only [List.cons_append, trails, ih, List.append_assoc]
      rfl

/-- One more exchange is cut short itself, or makes nothing run and leaves things as they are. -/
theorem endsCutShort_concat (engine : Engine) (session : Session) (exchanges : List Exchange)
    (last : Exchange) :
    engine.EndsCutShort session (exchanges ++ [last]) ↔
      engine.CutShort (engine.after session exchanges) last ∨
        engine.trail (engine.after session exchanges) last = [] ∧
          engine.EndsCutShort session exchanges := by
  constructor
  · rintro ⟨before, exchange, later, hsplit, hshort, hquiet⟩
    rcases List.eq_nil_or_concat later with rfl | ⟨between, final, rfl⟩
    · obtain ⟨rfl, hlast⟩ := List.append_inj' hsplit rfl
      cases hlast
      exact .inl hshort
    · have hshorter : exchanges ++ [last] = (before ++ exchange :: between) ++ [final] := by
        simpa using hsplit
      obtain ⟨rfl, hlast⟩ := List.append_inj' hshorter rfl
      cases hlast
      rw [List.concat_eq_append, trails_append, List.append_eq_nil_iff, ← after_append,
        List.append_assoc, List.singleton_append] at hquiet
      exact .inr ⟨by simpa [trails] using hquiet.2, before, exchange, between, rfl, hshort, hquiet.1⟩
  · rintro (hshort | ⟨hnone, before, exchange, later, rfl, hshort, hquiet⟩)
    · exact ⟨exchanges, last, [], rfl, hshort, rfl⟩
    · refine ⟨before, exchange, later ++ [last], by simp, hshort, ?_⟩
      rw [trails_append, hquiet, ← after_append, List.append_assoc, List.singleton_append]
      simpa [trails] using hnone

/-- After some exchanges a session is attended unless the last one that made something run was cut
short. -/
theorem attended_after (hsession : engine.Reachable session) (hattended : session.Attended)
    (exchanges : List Exchange) :
    (engine.after session exchanges).Attended ↔ ¬engine.EndsCutShort session exchanges := by
  induction exchanges using List.reverseRecOn with
  | nil =>
      have hnone : ¬engine.EndsCutShort session [] := by
        rintro ⟨before, exchange, later, hsplit, -⟩
        simp at hsplit
      exact iff_of_true hattended hnone
  | append_singleton earlier last ih =>
      obtain ⟨hquiet, hran⟩ := attended_next engine (hsession.after earlier).inOrder last
      have hnext : engine.after session (earlier ++ [last]) =
          engine.next (engine.after session earlier) last := after_append engine session earlier [last]
      rw [hnext, endsCutShort_concat]
      by_cases hrounds : engine.trail (engine.after session earlier) last = []
      · have hwhole : ¬engine.CutShort (engine.after session earlier) last := by
          rintro ⟨round, hround, -⟩
          rw [hrounds] at hround
          cases hround
        simp [hquiet hrounds, ih, hwhole, hrounds]
      · simp [hran hrounds, hrounds]

/-- Between exchanges a frame runs or nothing at all is in progress, unless the last exchange that
made something run used up its budget above a level that was interrupted.  In every turn the flow
that was interrupted goes on as soon as the level above it has no frames, and the turn comes to that
whenever a round leaves such a level, unless this round uses up the budget. -/
theorem attended_unless_cut_short (engine : Engine) (userId id : String)
    (exchanges : List Exchange) :
    ((engine.after (engine.startSession userId id) exchanges).Attended ↔
      ¬engine.EndsCutShort (engine.startSession userId id) exchanges) ∧
    ∀ exchange,
      ∀ turn ∈ engine.trail (engine.after (engine.startSession userId id) exchanges) exchange,
        (∀ frame callers below, turn.session.levels = ⟨[], (frame :: callers) :: below⟩ →
          [turn, turn.resumedAt engine frame callers below] <:+:
            engine.trail (engine.after (engine.startSession userId id) exchanges) exchange) ∧
        (turn.exhausts engine = false → ∀ level below,
          (turn.round engine).turn.session.levels = ⟨[], level :: below⟩ →
          [turn, (turn.round engine).turn] <:+:
            engine.trail (engine.after (engine.startSession userId id) exchanges) exchange) := by
  have hstart : engine.Reachable (engine.startSession userId id) := .start userId id
  refine ⟨attended_after hstart (.inr rfl) exchanges, ?_⟩
  intro exchange turn hturn
  have horder := trail_inOrder (hstart.after exchanges).inOrder exchange hturn
  obtain ⟨opened, -, -, htrail⟩ := running_of_trail hturn
  rw [htrail] at hturn ⊢
  have hruns := Turn.runs_drive engine opened
  refine ⟨?_, ?_⟩
  · intro frame callers below hlevels
    exact hruns.followed hturn (Turn.round_resumes horder hlevels)
  · intro hbudget level below hlevels
    exact hruns.followed hturn (Turn.onward_of_vacant horder hbudget hlevels)

end Engine

namespace Kiosk

/-- The same engine with one step for each turn. -/
def hurried : Engine :=
  { engine with settings := { engine.settings with maxSteps := 1 } }

/-- A guest answers the question of the second flow, and the turn has no step left to end that flow
properly: the first flow is stranded. -/
theorem order_stranded :
    ¬∀ session, hurried.Reachable session → session.Attended := by
  intro h
  have hstart : hurried.Reachable (hurried.startSession "guest" "kiosk") := .start _ _
  have hreachable := hstart.after (["Order", "Weather", "Paris"].map guest)
  have hattended := (Session.attended_iff hreachable.inOrder).1 (h _ hreachable)
  revert hattended
  simp only [← List.length_eq_zero_iff, ne_eq]
  decide +kernel

end Kiosk

end Parley
