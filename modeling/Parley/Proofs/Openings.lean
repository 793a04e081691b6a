import Parley.Proofs.Runs
import Parley.Turn.Activity

/-!
# How turns begin

What the user says is recorded first, and may make the frame that runs forget a
flow that waits for confirmation.  Neither matters to the order of the session:
the two touch only fields that no invariant reads.  Then the turn is answered at
once, or one of five things starts to run.
-/

set_option autoImplicit false

namespace Parley

namespace Frame

/-- Two frames are alike if they differ at most in the conversation they have seen and in the flow
that waits for confirmation. -/
def Alike (before after : Frame) : Prop :=
  after = { before with
    context := after.context
    pendingInterruption := after.pendingInterruption }

namespace Alike

variable {before middle after : Frame}

theorem refl (frame : Frame) : frame.Alike frame := rfl

theorem trans (h : before.Alike middle) (h' : middle.Alike after) : before.Alike after := by
  unfold Alike at h h' ⊢
  rw [h', h]

theorem steps (h : before.Alike after) : after.steps = before.steps := by rw [h]

theorem scope (h : before.Alike after) : after.scope = before.scope := by rw [h]

theorem transaction (h : before.Alike after) : after.transaction = before.transaction := by rw [h]

theorem replaced (h : before.Alike after) : after.replaced = before.replaced := by rw [h]

theorem pendingVariable (h : before.Alike after) :
    after.pendingVariable = before.pendingVariable := by rw [h]

theorem flowName (h : before.Alike after) : after.flowName = before.flowName := by rw [h]

theorem record (frame : Frame) (entry : Entry) : frame.Alike (frame.record entry) := rfl

theorem withInterruption (frame : Frame) (target : Option String) :
    frame.Alike { frame with pendingInterruption := target } := rfl

end Alike

end Frame

namespace Session

/-- A session is touched if its frame that runs is replaced by a frame like it, and its scopes are
left alone. -/
structure Touched (before after : Session) : Prop where
  levels : ∃ change, (∀ frame : Frame, frame.Alike (change frame)) ∧
    after.levels = before.levels.modifyTop change
  scopes : after.scopes = before.scopes

namespace Touched

variable {before middle after : Session}

theorem refl (session : Session) : session.Touched session := by
  refine ⟨⟨fun frame => frame, Frame.Alike.refl, ?_⟩, rfl⟩
  cases hcurrent : session.levels.current with
  | nil => simp [Levels.modifyTop, hcurrent]
  | cons frame callers =>
      simp only [Levels.modifyTop, hcurrent]
      rw [← hcurrent]

theorem trans (h : before.Touched middle) (h' : middle.Touched after) : before.Touched after := by
  obtain ⟨first, hfirst, hmiddle⟩ := h.levels
  obtain ⟨second, hsecond, hafter⟩ := h'.levels
  refine ⟨⟨second ∘ first, fun frame => (hfirst frame).trans (hsecond _), ?_⟩,
    h'.scopes.trans h.scopes⟩
  rw [hafter, hmiddle]
  simp [Levels.modifyTop_eq]

/-- A touched session has a frame like the former one on top and all other frames as before. -/
theorem levels_eq (h : before.Touched after) {frame : Frame} {callers : Level}
    {suspended : List Level} (hlevels : before.levels = ⟨frame :: callers, suspended⟩) :
    ∃ frame', frame.Alike frame' ∧ after.levels = ⟨frame' :: callers, suspended⟩ := by
  obtain ⟨change, hchange, hafter⟩ := h.levels
  refine ⟨change frame, hchange frame, ?_⟩
  rw [hafter, hlevels]
  rfl

/-- A touched session without frames on the innermost level has the levels it had. -/
theorem levels_eq_of_nil (h : before.Touched after) {suspended : List Level}
    (hlevels : before.levels = ⟨[], suspended⟩) : after.levels = ⟨[], suspended⟩ := by
  obtain ⟨change, -, hafter⟩ := h.levels
  rw [hafter, hlevels]
  rfl

/-- A touched session has frames in the same scopes. -/
theorem scopes_frames (h : before.Touched after) :
    after.levels.frames.map Frame.scope = before.levels.frames.map Frame.scope := by
  obtain ⟨change, hchange, hafter⟩ := h.levels
  rw [hafter]
  cases hcurrent : before.levels.current with
  | nil => simp [Levels.modifyTop, hcurrent]
  | cons frame callers =>
      simp [Levels.modifyTop, Levels.frames, Levels.inward, hcurrent, (hchange frame).scope]

theorem inOrder (h : before.Touched after) (horder : before.InOrder) : after.InOrder := by
  obtain ⟨change, hchange, hlevels⟩ := h.levels
  constructor
  · rw [hlevels, h.scopes]
    exact horder.wellScoped.modifyTop fun frame => (hchange frame).scope
  · rw [hlevels]
    exact horder.wellAccounted.modifyTop (fun frame => (hchange frame).transaction)
      fun frame => (hchange frame).replaced

end Touched

theorem touched_note (session : Session) (entry : Entry) :
    session.Touched (session.note entry) := by
  unfold note
  split
  · exact ⟨⟨_, fun frame => Frame.Alike.record frame entry, rfl⟩, rfl⟩
  · exact ⟨(Touched.refl session).levels, rfl⟩

theorem touched_hear (session : Session) (entry : Entry) : session.Touched (session.hear entry) :=
  ⟨(touched_note session entry).levels, (touched_note session entry).scopes⟩

end Session

namespace Turn

variable {engine : Engine} {turn : Turn}

theorem touched_declineInterruption (turn : Turn) :
    turn.session.Touched turn.declineInterruption.session :=
  ⟨⟨_, fun frame => Frame.Alike.withInterruption frame none, rfl⟩, rfl⟩

theorem touched_requestConfirmation (turn : Turn) (target : Definition) :
    turn.session.Touched (turn.requestConfirmation target).session :=
  ⟨⟨_, fun frame => Frame.Alike.withInterruption frame (some target.name), rfl⟩, rfl⟩

/-- What is done to find the reaction to an input only touches the session, and neither takes the
input nor a step. -/
theorem react_touched (engine : Engine) (turn : Turn) (frame : Frame) (input : String) :
    turn.session.Touched (turn.react engine frame input).1.session ∧
      (turn.react engine frame input).1.input = turn.input ∧
      (turn.react engine frame input).1.taken = turn.taken := by
  have hself := Session.Touched.refl turn.session
  have hdeclined := touched_declineInterruption turn
  unfold react
  split
  · exact ⟨hself, rfl, rfl⟩
  · exact ⟨hself, rfl, rfl⟩
  · exact ⟨hself, rfl, rfl⟩
  · simp only
    split
    · exact ⟨hdeclined, rfl, rfl⟩
    · exact ⟨hdeclined, rfl, rfl⟩
  · exact ⟨hdeclined, rfl, rfl⟩
  · exact ⟨hdeclined, rfl, rfl⟩
  · exact ⟨hself, rfl, rfl⟩

theorem handleInput_eq (engine : Engine) (turn : Turn) (frame : Frame) (input : String) :
    turn.handleInput engine frame input =
      (turn.react engine frame input).1.carryOut engine frame
        (turn.react engine frame input).2 := by
  unfold handleInput
  generalize turn.react engine frame input = reacted
  obtain ⟨after, reaction⟩ := reacted
  rfl

/-- An interruption completes the transaction of the frame that ran. -/
theorem state_paused {frame : Frame} (hactive : frame.transaction.state = .active) :
    (paused frame).transaction.state = .completed := by
  simp [paused, Transaction.complete, Transaction.finish_of_active hactive,
    Transaction.orUnchanged]

/-- An interruption puts the first frame of a flow on a level of its own, above the frame that
paused. -/
theorem levels_switchTo {frame : Frame} {callers : Level} {suspended : List Level}
    (hlevels : turn.session.levels = ⟨frame :: callers, suspended⟩) (flow : Definition) :
    (turn.switchTo flow).session.levels =
      ⟨[.start flow turn.session.scopes.nextId
          (.start flow.name "interruption" turn.session.userId)],
        (paused frame :: callers) :: suspended⟩ := by
  simp [switchTo, withoutInput, activate, modifyTop, withLevels, withSession, hlevels,
    Levels.modifyTop, Levels.interrupt, Levels.inward, Levels.push, Scopes.allocate]

theorem scopes_switchTo (turn : Turn) (flow : Definition) :
    (turn.switchTo flow).session.scopes =
      (turn.session.scopes.allocate (Table.overlay flow.vars turn.session.globals)).1 := rfl

theorem switchTo_inOrder {frame : Frame} {callers : Level} {suspended : List Level}
    (horder : turn.session.InOrder)
    (hlevels : turn.session.levels = ⟨frame :: callers, suspended⟩) (flow : Definition) :
    (turn.switchTo flow).session.InOrder := by
  have hactive := horder.wellAccounted.running frame (by simp [hlevels])
  have hscopes := horder.wellScoped
  have htransactions := horder.wellAccounted
  rw [hlevels] at hscopes htransactions
  have hpaused : (Levels.mk (paused frame :: callers) suspended).WellScoped turn.session.scopes :=
    hscopes.modifyTop fun f => show (paused f).scope = f.scope from rfl
  constructor
  · rw [levels_switchTo hlevels, scopes_switchTo]
    exact hpaused.interrupt.start rfl _
  · rw [levels_switchTo hlevels]
    apply (htransactions.interrupt (state_paused hactive) rfl).withCurrent
    · simp [Frame.start]
    · simp [Frame.start]

/-- A flow can be started on a level without frames. -/
theorem activate_inOrder {suspended : List Level} (horder : turn.session.InOrder)
    (hlevels : turn.session.levels = ⟨[], suspended⟩) (flow : Definition) (initiator : String) :
    (turn.activate flow initiator).session.InOrder := by
  have hscopes := horder.wellScoped
  have htransactions := horder.wellAccounted
  rw [hlevels] at hscopes htransactions
  have hstarted : (turn.activate flow initiator).session.levels =
      ⟨[.start flow turn.session.scopes.nextId (.start flow.name initiator turn.session.userId)],
        suspended⟩ := by
    simp [activate, withSession, hlevels, Levels.push, Scopes.allocate]
  constructor
  · rw [hstarted]
    exact hscopes.start rfl _
  · rw [hstarted]
    apply htransactions.withCurrent
    · simp [Frame.start]
    · simp [Frame.start]

/-- Giving up the flows of the innermost level leaves that level without frames. -/
theorem cancel_running {frame : Frame} {callers : Level} {suspended : List Level}
    (hlevels : turn.session.levels = ⟨frame :: callers, suspended⟩) (engine : Engine) :
    ∃ after, turn.cancel engine = .running after ∧ after.session.levels = ⟨[], suspended⟩ ∧
      after.session.scopes = turn.session.scopes ∧ after.input = none ∧
      after.taken = turn.taken := by
  have hfirst : turn.session.levels.current.getLast? =
      some ((frame :: callers).getLast (List.cons_ne_nil _ _)) := by
    rw [hlevels]
    exact List.getLast?_eq_some_getLast _
  refine ⟨((turn.withLevels turn.session.levels.drain.1).tell (engine.notice .cancelled
    [("flow", ((frame :: callers).getLast (List.cons_ne_nil _ _)).flowName)])).withoutInput,
    by simp only [cancel, hfirst], ?_, rfl, rfl, rfl⟩
  simp [withoutInput, tell, withSession, Session.tell, withLevels, Levels.drain, hlevels]

end Turn

namespace Opening

/-- The turn as it is after its beginning. -/
def turn : Opening → Turn
  | answered turn _ => turn
  | running turn => turn

end Opening

namespace Turn

variable {engine : Engine} {turn : Turn}

theorem carryOut_inOrder {frame : Frame} {callers : Level} {suspended : List Level}
    (horder : turn.session.InOrder)
    (hlevels : turn.session.levels = ⟨frame :: callers, suspended⟩) (engine : Engine)
    (named : Frame) (reaction : Reaction) :
    (turn.carryOut engine named reaction).turn.session.InOrder := by
  cases reaction with
  | cancel =>
      obtain ⟨after, hafter, hdrained, hscopes, -⟩ := cancel_running hlevels engine
      have hcurrent := withCurrent_inOrder horder [] (by simp)
      rw [hlevels] at hcurrent
      simp only [carryOut, hafter, Opening.turn]
      exact ⟨by rw [hdrained, hscopes]; exact hcurrent.wellScoped,
        by rw [hdrained]; exact hcurrent.wellAccounted⟩
  | help => exact horder
  | status => exact horder
  | stay => exact ⟨horder.wellScoped, horder.wellAccounted⟩
  | confirm flow => exact (touched_requestConfirmation turn flow).inOrder horder
  | interrupt flow => exact switchTo_inOrder horder hlevels flow
  | goOn => exact horder

/-- An input that is answered at once only touches the session. -/
theorem touched_of_answered {frame : Frame} {callers : Level} {suspended : List Level}
    (hlevels : turn.session.levels = ⟨frame :: callers, suspended⟩) {named : Frame}
    {reaction : Reaction} {after : Turn} {response : Option String}
    (h : turn.carryOut engine named reaction = .answered after response) :
    turn.session.Touched after.session := by
  cases reaction with
  | cancel =>
      obtain ⟨running, hrunning, -⟩ := cancel_running hlevels engine
      simp only [carryOut, hrunning] at h
      cases h
  | help | status =>
      cases h
      exact .refl _
  | confirm flow =>
      cases h
      exact touched_requestConfirmation turn flow
  | stay | interrupt flow | goOn => cases h

/-- An input for which no flow is found leaves the session as it is. -/
theorem session_of_welcome {input : String} {after : Turn} {response : Option String}
    (h : turn.welcome engine input = .answered after response) : after.session = turn.session := by
  unfold welcome at h
  simp only at h
  split at h
  · cases h
    rfl
  · cases h
    rfl
  · cases h

theorem welcome_inOrder {suspended : List Level} (horder : turn.session.InOrder)
    (hlevels : turn.session.levels = ⟨[], suspended⟩) (engine : Engine) (input : String) :
    (turn.welcome engine input).turn.session.InOrder := by
  unfold welcome
  simp only
  split
  · exact horder
  · exact horder
  · exact activate_inOrder horder hlevels _ "user"

end Turn

end Parley
