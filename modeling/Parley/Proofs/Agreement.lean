import Parley.Proofs.Conversations
import Parley.Proofs.Tasks

/-!
# Turns that agree off some scopes

Two turns agree off some scopes if they differ in the variables of these scopes
and in nothing else.  A turn reads one scope only, that of the frame that runs,
and numbers new scopes in order.  So as long as that frame stands in none of the
hidden scopes, whatever is done with two turns that agree leaves turns that agree.
-/

set_option autoImplicit false

namespace Parley

/-! ## Scopes -/

/-- All scopes hold the same variables but the hidden ones, and the next one has the same number. -/
structure Scopes.AgreeOff (hidden : Nat → Prop) (a b : Scopes) : Prop where
  nextId : b.nextId = a.nextId
  visible : ∀ id, ¬hidden id → b.get? id = a.get? id

namespace Scopes.AgreeOff

variable {hidden : Nat → Prop} {a b : Scopes}

theorem put (h : a.AgreeOff hidden b) (id : Nat) (vars : Fields) :
    (a.put id vars).AgreeOff hidden (b.put id vars) := by
  refine ⟨h.nextId, ?_⟩
  intro other hvisible
  by_cases hother : other = id
  · rw [hother, get?_put_self, get?_put_self]
  · rw [get?_put_of_ne vars hother, get?_put_of_ne vars hother]
    exact h.visible other hvisible

theorem allocate (h : a.AgreeOff hidden b) (vars : Fields) :
    (a.allocate vars).1.AgreeOff hidden (b.allocate vars).1 := by
  have hput := h.put a.nextId vars
  refine ⟨congrArg (· + 1) h.nextId, ?_⟩
  intro id hvisible
  show (b.put b.nextId vars).get? id = (a.put a.nextId vars).get? id
  rw [h.nextId]
  exact hput.visible id hvisible

theorem retain (h : a.AgreeOff hidden b) (live : List Nat) :
    (a.retain live).AgreeOff hidden (b.retain live) := by
  refine ⟨h.nextId, ?_⟩
  intro id hvisible
  rw [get?_retain, get?_retain, h.visible id hvisible]

end Scopes.AgreeOff

/-! ## Sessions -/

/-- The other session is this one with scopes that agree off the hidden ones. -/
inductive Session.AgreeOff (hidden : Nat → Prop) (a : Session) : Session → Prop where
  | intro (scopes : Scopes) (h : a.scopes.AgreeOff hidden scopes) :
      AgreeOff hidden a { a with scopes := scopes }

namespace Session.AgreeOff

variable {hidden : Nat → Prop} {a b : Session}

theorem levels (h : a.AgreeOff hidden b) : b.levels = a.levels := by
  obtain ⟨scopes, h⟩ := h
  rfl

theorem note (h : a.AgreeOff hidden b) (entry : Entry) :
    (a.note entry).AgreeOff hidden (b.note entry) := by
  obtain ⟨scopes, h⟩ := h
  unfold Session.note
  simp only
  split
  · exact .intro scopes h
  · exact .intro scopes h

theorem hear (h : a.AgreeOff hidden b) (entry : Entry) :
    (a.hear entry).AgreeOff hidden (b.hear entry) := by
  have hnoted := h.note entry
  unfold Session.hear
  generalize a.note entry = noted at hnoted ⊢
  generalize b.note entry = other at hnoted ⊢
  obtain ⟨scopes, hscopes⟩ := hnoted
  exact .intro scopes hscopes

theorem collectScopes (h : a.AgreeOff hidden b) :
    a.collectScopes.AgreeOff hidden b.collectScopes := by
  obtain ⟨scopes, h⟩ := h
  exact .intro _ (h.retain _)

theorem flush (h : a.AgreeOff hidden b) :
    a.flush.1.AgreeOff hidden b.flush.1 ∧ b.flush.2 = a.flush.2 := by
  obtain ⟨scopes, h⟩ := h
  unfold Session.flush
  simp only
  split
  · exact ⟨.intro scopes h, rfl⟩
  · exact ⟨.intro scopes h, rfl⟩

end Session.AgreeOff

/-! ## Turns -/

/-- The other turn is this one with scopes that agree off the hidden ones. -/
inductive Turn.AgreeOff (hidden : Nat → Prop) (a : Turn) : Turn → Prop where
  | intro (scopes : Scopes) (h : a.session.scopes.AgreeOff hidden scopes) :
      AgreeOff hidden a (a.withSession { a.session with scopes := scopes })

/-- Both are answered with the same response, or both run, with turns that agree. -/
inductive Opening.AgreeOff (hidden : Nat → Prop) : Opening → Opening → Prop where
  | answered {a b : Turn} (response : Option String) (h : a.AgreeOff hidden b) :
      AgreeOff hidden (.answered a response) (.answered b response)
  | running {a b : Turn} (h : a.AgreeOff hidden b) : AgreeOff hidden (.running a) (.running b)

/-- Both go on or both end, with turns that agree. -/
inductive Turn.Round.AgreeOff (hidden : Nat → Prop) : Round → Round → Prop where
  | onward {a b : Turn} (h : a.AgreeOff hidden b) : AgreeOff hidden (.onward a) (.onward b)
  | ended {a b : Turn} (h : a.AgreeOff hidden b) : AgreeOff hidden (.ended a) (.ended b)

namespace Turn.AgreeOff

variable {hidden : Nat → Prop} {engine : Engine} {a b : Turn}

theorem session (h : a.AgreeOff hidden b) : a.session.AgreeOff hidden b.session := by
  obtain ⟨scopes, h⟩ := h
  exact .intro scopes h

theorem start {before other : Session} (h : before.AgreeOff hidden other) (journal : Journal)
    (input : Option String) :
    (Turn.start before journal input).AgreeOff hidden (Turn.start other journal input) := by
  obtain ⟨scopes, h⟩ := h
  exact .intro scopes h

theorem levels (h : a.AgreeOff hidden b) : b.session.levels = a.session.levels :=
  h.session.levels

theorem task (h : a.AgreeOff hidden b) (engine : Engine) : b.task engine = a.task engine := by
  obtain ⟨scopes, h⟩ := h
  rfl

theorem journal (h : a.AgreeOff hidden b) : b.journal = a.journal := by
  obtain ⟨scopes, h⟩ := h
  rfl

theorem withLevels (h : a.AgreeOff hidden b) (levels : Levels) :
    (a.withLevels levels).AgreeOff hidden (b.withLevels levels) := by
  obtain ⟨scopes, h⟩ := h
  exact .intro scopes h

theorem modifyTop (h : a.AgreeOff hidden b) (change : Frame → Frame) :
    (a.modifyTop change).AgreeOff hidden (b.modifyTop change) := by
  obtain ⟨scopes, h⟩ := h
  exact .intro scopes h

theorem tell (h : a.AgreeOff hidden b) (text : String) :
    (a.tell text).AgreeOff hidden (b.tell text) := by
  obtain ⟨scopes, h⟩ := h
  exact .intro scopes h

theorem withoutInput (h : a.AgreeOff hidden b) : a.withoutInput.AgreeOff hidden b.withoutInput := by
  obtain ⟨scopes, h⟩ := h
  exact .intro scopes h

theorem withJournal (h : a.AgreeOff hidden b) (journal : Journal) :
    ({ a with journal := journal } : Turn).AgreeOff hidden { b with journal := journal } := by
  obtain ⟨scopes, h⟩ := h
  exact .intro scopes h

theorem charged (h : a.AgreeOff hidden b) : a.charged.AgreeOff hidden b.charged := by
  obtain ⟨scopes, h⟩ := h
  exact .intro scopes h

/-- The new scope has the same number in both, so the new frames are the same. -/
theorem activate (h : a.AgreeOff hidden b) (flow : Definition) (initiator : String) :
    (a.activate flow initiator).AgreeOff hidden (b.activate flow initiator) := by
  obtain ⟨scopes, h⟩ := h
  have hnew := h.allocate (Table.overlay flow.vars a.session.globals)
  have hnumber : (scopes.allocate (Table.overlay flow.vars a.session.globals)).2 =
      (a.session.scopes.allocate (Table.overlay flow.vars a.session.globals)).2 := h.nextId
  simp only [Turn.activate, Turn.withSession, hnumber]
  exact .intro _ hnew

theorem abort (h : a.AgreeOff hidden b) (error : EngineError) :
    (a.abort engine error).AgreeOff hidden (b.abort engine error) := by
  have hlevels := h.levels
  unfold Turn.abort
  rw [hlevels]
  exact (h.withLevels _).tell _

theorem concluded (h : a.AgreeOff hidden b) :
    (a.concluded engine).AgreeOff hidden (b.concluded engine) := by
  have houtbox : b.session.outbox = a.session.outbox := by
    obtain ⟨scopes, h⟩ := h
    rfl
  unfold Turn.concluded
  rw [houtbox]
  split
  · exact h.tell _
  · exact h

/-! ### Rounds -/

theorem resume (h : a.AgreeOff hidden b) :
    (a.resume engine).1.AgreeOff hidden (b.resume engine).1 ∧
      (b.resume engine).2 = (a.resume engine).2 := by
  obtain ⟨scopes, h⟩ := h
  unfold Turn.resume
  cases hleft : a.session.levels.leave with
  | error e =>
      simp only [Turn.withSession, hleft, and_true]
      exact .intro scopes h
  | ok left =>
      obtain ⟨levels, level⟩ := left
      simp only [Turn.withSession, hleft]
      cases levels.top? with
      | none => exact ⟨.intro scopes h, rfl⟩
      | some frame => exact ⟨.intro scopes h, rfl⟩

theorem finishFrame (h : a.AgreeOff hidden b) (frame : Frame) :
    (a.finishFrame frame).1.AgreeOff hidden (b.finishFrame frame).1 ∧
      (b.finishFrame frame).2 = (a.finishFrame frame).2 := by
  obtain ⟨scopes, h⟩ := h
  unfold Turn.finishFrame
  simp only
  cases frame.transaction.ifOpen Transaction.complete with
  | error e => exact ⟨.intro scopes h, rfl⟩
  | ok transaction => exact ⟨.intro scopes h, rfl⟩

theorem adopt (h : a.AgreeOff hidden b) (scene : Scene) :
    (a.adopt scene).AgreeOff hidden (b.adopt scene) := by
  obtain ⟨scopes, h⟩ := h
  exact .intro _ (h.put _ _)

theorem settle (h : a.AgreeOff hidden b) (outcome : Outcome) :
    (a.settle outcome).1.AgreeOff hidden (b.settle outcome).1 ∧
      (b.settle outcome).2 = (a.settle outcome).2 := by
  obtain ⟨scene, next⟩ := outcome
  have hadopted := h.adopt scene
  have hlevels := hadopted.levels
  match next with
  | .error e => exact ⟨hadopted, rfl⟩
  | .ok .proceed => exact ⟨hadopted, rfl⟩
  | .ok .await => exact ⟨hadopted, rfl⟩
  | .ok .leave =>
      refine ⟨?_, rfl⟩
      simp only [Turn.settle, advance, hlevels]
      exact hadopted.withLevels _
  | .ok (.enter frame) =>
      refine ⟨?_, rfl⟩
      simp only [Turn.settle, advance, hlevels]
      exact hadopted.withLevels _
  | .ok (.restart none) => exact ⟨hadopted.withLevels _, rfl⟩
  | .ok (.restart (some flow)) => exact ⟨(hadopted.withLevels _).activate flow _, rfl⟩

/-- A step of a frame in a scope that is not hidden reads the same variables in both turns. -/
theorem runStep (h : a.AgreeOff hidden b) {frame : Frame} (hvisible : ¬hidden frame.scope)
    (step : Step) :
    (Turn.runStep engine a frame step).1.AgreeOff hidden (Turn.runStep engine b frame step).1 ∧
      (Turn.runStep engine b frame step).2 = (Turn.runStep engine a frame step).2 := by
  -- the scene and the stage are all that a step can look at
  have hvars : b.session.scopes.get? frame.scope = a.session.scopes.get? frame.scope := by
    obtain ⟨scopes, h⟩ := h
    exact h.visible frame.scope hvisible
  have hscene : ∀ vars, b.scene frame vars = a.scene frame vars := by
    intro vars
    obtain ⟨scopes, h⟩ := h
    rfl
  have hstage : b.stage engine = a.stage engine := by
    obtain ⟨scopes, h⟩ := h
    rfl
  unfold Turn.runStep
  rw [hvars]
  cases a.session.scopes.get? frame.scope with
  | none => exact ⟨h, rfl⟩
  | some vars =>
      simp only [hscene, hstage]
      exact h.settle _

/-- As long as the frame that runs stands in a scope that is not hidden, a step leaves turns that
agree. -/
theorem step (engine : Engine) (h : a.AgreeOff hidden b)
    (hvisible : ∀ frame, a.session.levels.top? = some frame → ¬hidden frame.scope) :
    (a.step engine).1.AgreeOff hidden (b.step engine).1 ∧
      (b.step engine).2 = (a.step engine).2 := by
  rw [step_eq_carried engine a, step_eq_carried engine b, h.task engine]
  cases htask : a.task engine with
  | rest => exact ⟨h, rfl⟩
  | resume => exact h.resume
  | stop => exact ⟨h.charged, rfl⟩
  | complete frame => exact h.charged.finishFrame frame
  | dispatch frame step =>
      obtain ⟨htop, -, -⟩ := task_eq_dispatch.1 htask
      exact h.charged.runStep (hvisible frame htop) step

theorem round (engine : Engine) (h : a.AgreeOff hidden b)
    (hvisible : ∀ frame, a.session.levels.top? = some frame → ¬hidden frame.scope) :
    (a.round engine).AgreeOff hidden (b.round engine) := by
  obtain ⟨hturns, hsame⟩ := h.step engine hvisible
  unfold Turn.round
  generalize a.step engine = left at hturns hsame ⊢
  generalize b.step engine = right at hturns hsame ⊢
  obtain ⟨after, progress⟩ := left
  obtain ⟨other, progress'⟩ := right
  obtain rfl : progress' = progress := hsame
  match progress' with
  | .ok .running => exact .onward hturns
  | .ok .blocked => exact .ended hturns
  | .ok .done => exact .ended hturns.concluded
  | .error e =>
      simp only
      split
      · exact .ended (hturns.abort e)
      · exact .onward (hturns.abort e)

/-! ### How turns begin -/

theorem consider (h : a.AgreeOff hidden b) (input current : String) :
    (a.consider engine input current).1.AgreeOff hidden (b.consider engine input current).1 ∧
      (b.consider engine input current).2 = (a.consider engine input current).2 := by
  have hjournal := h.journal
  unfold Turn.consider
  rw [hjournal]
  exact ⟨h.withJournal _, rfl⟩

/-- The reaction to an input does not depend on any variables. -/
theorem react (engine : Engine) (h : a.AgreeOff hidden b) (frame : Frame) (input : String) :
    (a.react engine frame input).1.AgreeOff hidden (b.react engine frame input).1 ∧
      (b.react engine frame input).2 = (a.react engine frame input).2 := by
  have hdeclined : a.declineInterruption.AgreeOff hidden b.declineInterruption := h.modifyTop _
  unfold Turn.react
  split
  · exact ⟨h, rfl⟩
  · exact ⟨h, rfl⟩
  · exact ⟨h, rfl⟩
  · rename_i target hcommand hpending
    cases engine.library.get? target with
    | none => exact hdeclined.consider input frame.flowName
    | some flow => exact ⟨hdeclined, rfl⟩
  · exact ⟨hdeclined, rfl⟩
  · exact hdeclined.consider input frame.flowName
  · exact h.consider input frame.flowName

theorem cancel (h : a.AgreeOff hidden b) : (a.cancel engine).AgreeOff hidden (b.cancel engine) := by
  obtain ⟨scopes, h⟩ := h
  unfold Turn.cancel
  simp only [Turn.withSession]
  split
  · exact .answered _ (.intro scopes h)
  · exact .running (.intro scopes h)

theorem switchTo (h : a.AgreeOff hidden b) (flow : Definition) :
    (a.switchTo flow).AgreeOff hidden (b.switchTo flow) := by
  have hpaused := h.modifyTop Turn.paused
  have hlevels := hpaused.levels
  unfold Turn.switchTo
  simp only [hlevels]
  exact ((hpaused.withLevels _).activate flow _).withoutInput

theorem carryOut (h : a.AgreeOff hidden b) (frame : Frame) (reaction : Reaction) :
    (a.carryOut engine frame reaction).AgreeOff hidden (b.carryOut engine frame reaction) := by
  cases reaction with
  | cancel => exact h.cancel
  | help => exact .answered _ h
  | status =>
      obtain ⟨scopes, h⟩ := h
      exact .answered _ (.intro scopes h)
  | stay => exact .running (h.tell _).withoutInput
  | confirm target => exact .answered _ (h.modifyTop _)
  | interrupt target => exact .running (h.switchTo target)
  | goOn => exact .running h

theorem handleInput (h : a.AgreeOff hidden b) (frame : Frame) (input : String) :
    (a.handleInput engine frame input).AgreeOff hidden (b.handleInput engine frame input) := by
  obtain ⟨hturns, hreaction⟩ := h.react engine frame input
  unfold Turn.handleInput
  simp only [hreaction]
  exact hturns.carryOut frame _

theorem welcome (h : a.AgreeOff hidden b) (input : String) :
    (a.welcome engine input).AgreeOff hidden (b.welcome engine input) := by
  have hjournal := h.journal
  unfold Turn.welcome
  rw [hjournal]
  generalize Intent.classify engine a.journal input none = classified
  obtain ⟨journal, intent⟩ := classified
  have hasked := h.withJournal journal
  simp only
  split
  · exact .answered _ hasked
  · exact .answered _ hasked
  · exact .running (hasked.activate _ _).withoutInput

end Turn.AgreeOff

/-- The turns that an entry begins agree if the sessions do. -/
theorem Session.AgreeOff.opening {hidden : Nat → Prop} {a b : Session} (h : a.AgreeOff hidden b)
    (engine : Engine) (journal : Journal) (entry : Entry) :
    (engine.opening journal a entry).AgreeOff hidden (engine.opening journal b entry) := by
  have hheard := h.hear entry
  have hturns := Turn.AgreeOff.start hheard journal (some entry.content)
  unfold Engine.opening
  simp only [hheard.levels]
  cases (a.hear entry).levels.top? with
  | none => exact hturns.welcome entry.content
  | some frame => exact hturns.handleInput frame entry.content

end Parley
