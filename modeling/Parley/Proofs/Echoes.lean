import Mathlib.Data.List.Forall2
import Mathlib.Data.Option.Basic
import Parley.Proofs.Budget
import Parley.Proofs.Mirroring
import Parley.Turn.Activity

/-!
# Turns that echo each other

A turn echoes another one if it is the same but for the conversations that its frames
have seen, the entries that belong to no flow and a past that is answered alike.  A
frame keeps its conversation for one purpose only, to ask the model for the arguments
of a tool.  So as long as no step does that, whatever is done with two such turns
leaves two such turns.
-/

set_option autoImplicit false

namespace Parley

/-! ## Frames and levels -/

/-- The other frame is this one, but may have seen another conversation. -/
inductive Frame.Echoes (frame : Frame) : Frame → Prop where
  | intro (context : List Entry) : Echoes frame { frame with context := context }

/-- The other levels have the same frames, which may have seen other conversations. -/
structure Levels.Echoes (a b : Levels) : Prop where
  current : List.Forall₂ Frame.Echoes a.current b.current
  suspended : List.Forall₂ (List.Forall₂ Frame.Echoes) a.suspended b.suspended

namespace Levels.Echoes

variable {a b : Levels}

theorem refl (levels : Levels) : levels.Echoes levels := by
  have hlevel : ∀ level : Level, List.Forall₂ Frame.Echoes level level := fun level =>
    List.forall₂_same.2 fun frame _ => .intro frame.context
  exact ⟨hlevel _, List.forall₂_same.2 fun level _ => hlevel level⟩

theorem head? {level other : Level} (h : List.Forall₂ Frame.Echoes level other) :
    Option.Rel Frame.Echoes level.head? other.head? := by
  cases h with
  | nil => exact .none
  | cons hframe hcallers => exact .some hframe

theorem top? (h : a.Echoes b) : Option.Rel Frame.Echoes a.top? b.top? :=
  head? h.current

/-- The frames that were started first. -/
theorem first? (h : a.Echoes b) :
    Option.Rel Frame.Echoes a.current.getLast? b.current.getLast? := by
  rw [List.getLast?_eq_head?_reverse, List.getLast?_eq_head?_reverse]
  exact head? (List.forall₂_reverse_iff.2 h.current)

theorem suspended_isEmpty (h : a.Echoes b) : b.suspended.isEmpty = a.suspended.isEmpty := by
  obtain ⟨current, suspended⟩ := a
  obtain ⟨other, below⟩ := b
  obtain ⟨-, hsuspended⟩ := h
  cases hsuspended with
  | nil => rfl
  | cons hlevel hbelow => rfl

theorem depth (h : a.Echoes b) : b.depth = a.depth :=
  h.current.length_eq.symm

theorem frames (h : a.Echoes b) : List.Forall₂ Frame.Echoes a.frames b.frames :=
  List.rel_flatten (.cons h.current h.suspended)

/-- The frames refer to the same scopes. -/
theorem scopes (h : a.Echoes b) : b.frames.map Frame.scope = a.frames.map Frame.scope := by
  have hframes := h.frames
  generalize a.frames = frames at hframes ⊢
  generalize b.frames = others at hframes ⊢
  induction hframes with
  | nil => rfl
  | cons hframe hrest ih =>
      obtain ⟨context⟩ := hframe
      exact congrArg (_ :: ·) ih

theorem modifyTop (h : a.Echoes b) {change other : Frame → Frame}
    (hchange : ∀ f g, f.Echoes g → (change f).Echoes (other g)) :
    (a.modifyTop change).Echoes (b.modifyTop other) := by
  obtain ⟨current, suspended⟩ := a
  obtain ⟨current', suspended'⟩ := b
  obtain ⟨hcurrent, hsuspended⟩ := h
  cases hcurrent with
  | nil => exact ⟨.nil, hsuspended⟩
  | cons hframe hcallers => exact ⟨.cons (hchange _ _ hframe) hcallers, hsuspended⟩

/-- An entry may be recorded in the other levels alone. -/
theorem recorded (h : a.Echoes b) (entry : Entry) :
    a.Echoes (b.modifyTop fun frame => frame.record entry) := by
  obtain ⟨current, suspended⟩ := a
  obtain ⟨current', suspended'⟩ := b
  obtain ⟨hcurrent, hsuspended⟩ := h
  cases hcurrent with
  | nil => exact ⟨.nil, hsuspended⟩
  | cons hframe hcallers =>
      obtain ⟨context⟩ := hframe
      exact ⟨.cons (.intro _) hcallers, hsuspended⟩

theorem push (h : a.Echoes b) {frame other : Frame} (hframe : frame.Echoes other) :
    (a.push frame).Echoes (b.push other) :=
  ⟨.cons hframe h.current, h.suspended⟩

theorem pop (h : a.Echoes b) : a.pop.1.Echoes b.pop.1 := by
  obtain ⟨current, suspended⟩ := a
  obtain ⟨current', suspended'⟩ := b
  obtain ⟨hcurrent, hsuspended⟩ := h
  cases hcurrent with
  | nil => exact ⟨.nil, hsuspended⟩
  | cons hframe hcallers => exact ⟨hcallers, hsuspended⟩

theorem drain (h : a.Echoes b) : a.drain.1.Echoes b.drain.1 :=
  ⟨.nil, h.suspended⟩

theorem interrupt (h : a.Echoes b) : a.interrupt.Echoes b.interrupt :=
  ⟨.nil, .cons h.current h.suspended⟩

end Levels.Echoes

/-! ## Sessions -/

/-- The other session is this one, but other things may have been said. -/
inductive Session.Echoes (a : Session) : Session → Prop where
  | intro (levels : Levels) (lastEntry : Option Entry) (history : List Entry)
      (h : a.levels.Echoes levels) :
      Echoes a { a with levels := levels, lastEntry := lastEntry, history := history }

namespace Session.Echoes

variable {a b : Session}

theorem refl (session : Session) : session.Echoes session :=
  .intro session.levels session.lastEntry session.history (.refl session.levels)

theorem levels (h : a.Echoes b) : a.levels.Echoes b.levels := by
  obtain ⟨levels, lastEntry, history, h⟩ := h
  exact h

theorem withLevels (h : a.Echoes b) {levels others : Levels} (hlevels : levels.Echoes others) :
    ({ a with levels := levels } : Session).Echoes { b with levels := others } := by
  obtain ⟨-, lastEntry, history, -⟩ := h
  exact .intro others lastEntry history hlevels

theorem note (h : a.Echoes b) (entry : Entry) : (a.note entry).Echoes (b.note entry) := by
  obtain ⟨levels, lastEntry, history, h⟩ := h
  have htop := h.top?
  unfold Session.note
  simp only
  generalize a.levels.top? = top at htop ⊢
  generalize levels.top? = other at htop ⊢
  cases htop with
  | some hframe =>
      refine .intro _ lastEntry history (h.modifyTop fun f g hframe => ?_)
      obtain ⟨context⟩ := hframe
      exact .intro _
  | none => exact .intro levels _ _ h

theorem hear (h : a.Echoes b) (entry : Entry) : (a.hear entry).Echoes (b.hear entry) := by
  have hnoted := h.note entry
  unfold Session.hear
  generalize a.note entry = noted at hnoted ⊢
  generalize b.note entry = other at hnoted ⊢
  obtain ⟨levels, lastEntry, history, h⟩ := hnoted
  exact .intro levels _ history h

/-- A session that notes an entry still echoes what it has echoed. -/
theorem noted (h : a.Echoes b) (entry : Entry) : a.Echoes (b.note entry) := by
  obtain ⟨levels, lastEntry, history, h⟩ := h
  unfold Session.note
  simp only
  split
  · exact .intro _ lastEntry history (h.recorded entry)
  · exact .intro levels _ _ h

/-- So does a session that hears an entry. -/
theorem heard (h : a.Echoes b) (entry : Entry) : a.Echoes (b.hear entry) := by
  have hnoted := h.noted entry
  unfold Session.hear
  generalize b.note entry = other at hnoted ⊢
  obtain ⟨levels, lastEntry, history, h⟩ := hnoted
  exact .intro levels _ history h

theorem tell (h : a.Echoes b) (text : String) : (a.tell text).Echoes (b.tell text) := by
  obtain ⟨levels, lastEntry, history, h⟩ := h
  exact .intro levels lastEntry history h

theorem collectScopes (h : a.Echoes b) : a.collectScopes.Echoes b.collectScopes := by
  obtain ⟨levels, lastEntry, history, h⟩ := h
  unfold Session.collectScopes
  simp only [h.scopes]
  exact .intro levels lastEntry history h

theorem flush (h : a.Echoes b) : a.flush.1.Echoes b.flush.1 ∧ b.flush.2 = a.flush.2 := by
  obtain ⟨levels, lastEntry, history, h⟩ := h
  unfold Session.flush
  simp only
  split
  · exact ⟨.intro levels lastEntry history h, rfl⟩
  · exact ⟨.intro levels lastEntry history h, rfl⟩

end Session.Echoes

/-! ## Turns -/

/-- The other turn has a session that echoes that of this one, after a journal that is answered
alike. -/
inductive Turn.Echoes (engine : Engine) (a : Turn) : Turn → Prop where
  | intro (session : Session) (journal : Journal) (h : a.session.Echoes session)
      (hjournal : engine.AnswersAlike a.journal journal) :
      Echoes engine a { a with session := session, journal := journal }

/-- Both go on or both end, with turns that echo each other. -/
inductive Turn.Round.Echoes (engine : Engine) : Round → Round → Prop where
  | onward {a b : Turn} (h : a.Echoes engine b) : Echoes engine (.onward a) (.onward b)
  | ended {a b : Turn} (h : a.Echoes engine b) : Echoes engine (.ended a) (.ended b)

/-- The other task is the same for a frame that echoes the one of this task. -/
inductive Turn.Task.Echoes : Task → Task → Prop where
  | rest : Echoes .rest .rest
  | resume : Echoes .resume .resume
  | stop : Echoes .stop .stop
  | complete {frame other : Frame} (h : frame.Echoes other) :
      Echoes (.complete frame) (.complete other)
  | dispatch {frame other : Frame} (h : frame.Echoes other) (step : Step) :
      Echoes (.dispatch frame step) (.dispatch other step)

namespace Turn.Echoes

variable {engine : Engine} {a b : Turn}

theorem session (h : a.Echoes engine b) : a.session.Echoes b.session := by
  obtain ⟨session, journal, h, hjournal⟩ := h
  exact h

theorem journal (h : a.Echoes engine b) : engine.AnswersAlike a.journal b.journal := by
  obtain ⟨session, journal, h, hjournal⟩ := h
  exact hjournal

theorem start {before other : Session} (h : before.Echoes other) {journal past : Journal}
    (hjournal : engine.AnswersAlike journal past) (input : Option String) :
    (Turn.start before journal input).Echoes engine (Turn.start other past input) :=
  .intro other past h hjournal

theorem withSession (h : a.Echoes engine b) {left right : Session} (hsession : left.Echoes right) :
    (a.withSession left).Echoes engine (b.withSession right) := by
  obtain ⟨session, journal, h, hjournal⟩ := h
  exact .intro right journal hsession hjournal

theorem withLevels (h : a.Echoes engine b) {levels others : Levels}
    (hlevels : levels.Echoes others) :
    (a.withLevels levels).Echoes engine (b.withLevels others) :=
  h.withSession (h.session.withLevels hlevels)

/-- A change of the frame that runs, whatever the frame has heard. -/
theorem modifyTop (h : a.Echoes engine b) (change : Frame → Frame)
    (hchange : ∀ frame context,
      change { frame with context := context } = { change frame with context := context }) :
    (a.modifyTop change).Echoes engine (b.modifyTop change) := by
  refine h.withLevels (h.session.levels.modifyTop ?_)
  rintro f _ ⟨context⟩
  rw [hchange f context]
  exact .intro context

theorem tell (h : a.Echoes engine b) (text : String) : (a.tell text).Echoes engine (b.tell text) :=
  h.withSession (h.session.tell text)

theorem withoutInput (h : a.Echoes engine b) : a.withoutInput.Echoes engine b.withoutInput := by
  obtain ⟨session, journal, h, hjournal⟩ := h
  exact .intro session journal h hjournal

theorem withJournal (h : a.Echoes engine b) {journal past : Journal}
    (hjournal : engine.AnswersAlike journal past) :
    ({ a with journal := journal } : Turn).Echoes engine { b with journal := past } := by
  obtain ⟨session, other, h, -⟩ := h
  exact .intro session past h hjournal

theorem charged (h : a.Echoes engine b) : a.charged.Echoes engine b.charged := by
  obtain ⟨session, journal, h, hjournal⟩ := h
  exact .intro session journal h hjournal

theorem activate (h : a.Echoes engine b) (flow : Definition) (initiator : String) :
    (a.activate flow initiator).Echoes engine (b.activate flow initiator) := by
  obtain ⟨_, journal, ⟨levels, lastEntry, history, h⟩, hjournal⟩ := h
  exact .intro _ journal (.intro _ lastEntry history (h.push (.intro _))) hjournal

theorem abort (h : a.Echoes engine b) (error : EngineError) :
    (a.abort engine error).Echoes engine (b.abort engine error) :=
  (h.withLevels h.session.levels.drain).tell _

theorem concluded (h : a.Echoes engine b) :
    (a.concluded engine).Echoes engine (b.concluded engine) := by
  have houtbox : b.session.outbox = a.session.outbox := by
    obtain ⟨_, journal, ⟨levels, lastEntry, history, h⟩, hjournal⟩ := h
    rfl
  unfold Turn.concluded
  rw [houtbox]
  split
  · exact h.tell _
  · exact h

/-! ### Rounds -/

theorem resume (h : a.Echoes engine b) :
    (a.resume engine).1.Echoes engine (b.resume engine).1 ∧
      (b.resume engine).2 = (a.resume engine).2 := by
  have hkept := h
  obtain ⟨_, journal, ⟨levels, lastEntry, history, h⟩, hjournal⟩ := h
  have hsuspended := h.suspended
  unfold Turn.resume Levels.leave
  simp only
  generalize a.session.levels.suspended = below at hsuspended ⊢
  generalize levels.suspended = others at hsuspended ⊢
  cases hsuspended with
  | nil => exact ⟨hkept, rfl⟩
  | cons hlevel hbelow =>
      have hlevels : Levels.Echoes ⟨_, _⟩ ⟨_, _⟩ := ⟨hlevel, hbelow⟩
      have hleft := hkept.withLevels hlevels
      cases hlevel with
      | nil => exact ⟨hleft, rfl⟩
      | cons hframe hcallers =>
          have hresumed := hleft.modifyTop (Turn.resumed a.session.userId) fun _ _ => rfl
          obtain ⟨context⟩ := hframe
          exact ⟨hresumed.tell _, rfl⟩

theorem task (h : a.Echoes engine b) : (a.task engine).Echoes (b.task engine) := by
  have htop := h.session.levels.top?
  have hsuspended := h.session.levels.suspended_isEmpty
  have htaken : b.taken = a.taken := by
    obtain ⟨session, journal, h, hjournal⟩ := h
    rfl
  unfold Turn.task
  rw [hsuspended, htaken]
  generalize a.session.levels.top? = top at htop ⊢
  generalize b.session.levels.top? = other at htop ⊢
  cases htop with
  | none =>
      simp only
      split
      · exact .rest
      · exact .resume
  | @some frame other hframe =>
      have hsteps : other.steps = frame.steps := by
        obtain ⟨context⟩ := hframe
        rfl
      simp only [hsteps]
      split
      · exact .stop
      · cases frame.steps with
        | nil => exact .complete hframe
        | cons step later => exact .dispatch hframe step

theorem finishFrame (h : a.Echoes engine b) {frame other : Frame} (hframe : frame.Echoes other) :
    (a.finishFrame frame).1.Echoes engine (b.finishFrame other).1 ∧
      (b.finishFrame other).2 = (a.finishFrame frame).2 := by
  obtain ⟨context⟩ := hframe
  have hpopped := h.withLevels h.session.levels.pop
  unfold Turn.finishFrame
  simp only
  cases frame.transaction.ifOpen Transaction.complete with
  | error e => exact ⟨hpopped, rfl⟩
  | ok transaction => exact ⟨hpopped, rfl⟩

/-- What happened in a scene is adopted by both turns. -/
theorem adopt (h : a.Echoes engine b) {scene other : Scene}
    (hscene : scene.Mirrors engine id False other) :
    (a.adopt scene).Echoes engine (b.adopt other) := by
  obtain ⟨context, past, -, hpast⟩ := hscene
  obtain ⟨_, journal, ⟨levels, lastEntry, history, h⟩, hjournal⟩ := h
  exact .intro _ past (.intro _ lastEntry history (h.modifyTop fun _ _ _ => .intro context)) hpast

theorem settle (h : a.Echoes engine b) {outcome other : Outcome}
    (houtcome : outcome.Mirrors engine id False other) :
    (a.settle outcome).1.Echoes engine (b.settle other).1 ∧
      (b.settle other).2 = (a.settle outcome).2 := by
  have hadopted := h.adopt houtcome.scene
  have hlevels := hadopted.session.levels
  have hnext := houtcome.next
  obtain ⟨scene, next⟩ := outcome
  obtain ⟨scene', next'⟩ := other
  obtain rfl : next' = next.map (Next.renamed id) := hnext
  match next with
  | .error e => exact ⟨hadopted, rfl⟩
  | .ok .proceed => exact ⟨hadopted, rfl⟩
  | .ok .await => exact ⟨hadopted, rfl⟩
  | .ok .leave => exact ⟨hadopted.withLevels hlevels.pop, rfl⟩
  | .ok (.enter entered) =>
      exact ⟨hadopted.withLevels (hlevels.push (.intro entered.context)), rfl⟩
  | .ok (.restart none) => exact ⟨hadopted.withLevels (.refl _), rfl⟩
  | .ok (.restart (some flow)) =>
      exact ⟨(hadopted.withLevels (.refl _)).activate flow "reboot", rfl⟩

/-- A step for which the model is not asked for arguments does the same in both turns. -/
theorem runStep (h : a.Echoes engine b) {frame other : Frame} (hframe : frame.Echoes other)
    {step : Step} (hgiven : step.ArgumentsGiven engine.registry) :
    (Turn.runStep engine a frame step).1.Echoes engine (Turn.runStep engine b other step).1 ∧
      (Turn.runStep engine b other step).2 = (Turn.runStep engine a frame step).2 := by
  have hscopes : b.session.scopes = a.session.scopes := by
    obtain ⟨_, journal, ⟨levels, lastEntry, history, h⟩, hjournal⟩ := h
    rfl
  have hstage : b.stage engine = a.stage engine := by
    have hdepth := h.session.levels.depth
    obtain ⟨_, journal, ⟨levels, lastEntry, history, h⟩, hjournal⟩ := h
    simp only [stage, hdepth]
  have hscope : other.scope = frame.scope := by
    obtain ⟨context⟩ := hframe
    rfl
  unfold Turn.runStep
  rw [hscopes, hscope, hstage]
  cases a.session.scopes.get? frame.scope with
  | none => exact ⟨h, rfl⟩
  | some vars =>
      have hscene : (a.scene frame vars).Mirrors engine id False (b.scene other vars) := by
        obtain ⟨context⟩ := hframe
        obtain ⟨_, journal, ⟨levels, lastEntry, history, h⟩, hjournal⟩ := h
        exact .intro context journal False.elim hjournal
      exact h.settle (@perform_mirrors (a.stage engine) id False _ _ hscene step (.inr hgiven))

/-- A step leaves turns that echo each other. -/
theorem step (h : a.Echoes engine b)
    (hgiven : ∀ frame step, a.task engine = .dispatch frame step →
      step.ArgumentsGiven engine.registry) :
    (a.step engine).1.Echoes engine (b.step engine).1 ∧
      (b.step engine).2 = (a.step engine).2 := by
  have htasks := h.task
  rw [step_eq_carried engine a, step_eq_carried engine b]
  generalize b.task engine = other at htasks ⊢
  generalize htask : a.task engine = task at htasks hgiven ⊢
  cases htasks with
  | rest => exact ⟨h, rfl⟩
  | resume => exact h.resume
  | stop => exact ⟨h.charged, rfl⟩
  | complete hframe => exact h.charged.finishFrame hframe
  | dispatch hframe step => exact h.charged.runStep hframe (hgiven _ step rfl)

/-- A round leaves turns that echo each other. -/
theorem round (h : a.Echoes engine b)
    (hgiven : ∀ frame step, a.task engine = .dispatch frame step →
      step.ArgumentsGiven engine.registry) :
    (a.round engine).Echoes engine (b.round engine) := by
  obtain ⟨hturns, hsame⟩ := h.step hgiven
  unfold Turn.round
  generalize a.step engine = left at hturns hsame ⊢
  generalize b.step engine = right at hturns hsame ⊢
  obtain ⟨after, progress⟩ := left
  obtain ⟨other, progress'⟩ := right
  obtain rfl : progress' = progress := hsame
  match progress' with
  | .ok .running => exact .onward hturns
  | .ok .blocked => exact .ended hturns
  | .ok .done => exact .ended hturns.concluded
  | .error e =>
      simp only
      split
      · exact .ended (hturns.abort e)
      · exact .onward (hturns.abort e)

end Turn.Echoes

namespace Turn

variable {engine : Engine} {a b : Turn}

theorem Runs.echoes {trail : List Turn} {final : Turn} (hrun : Runs engine a trail final)
    (h : a.Echoes engine b)
    (hgiven : ∀ turn ∈ trail, ∀ frame step, turn.task engine = .dispatch frame step →
      step.ArgumentsGiven engine.registry) :
    ∃ others last, Runs engine b others last ∧ final.Echoes engine last := by
  induction hrun generalizing b with
  | last hended =>
      have hrounds := h.round (hgiven _ List.mem_cons_self)
      rw [hended] at hrounds
      generalize hround : b.round engine = round at hrounds
      cases hrounds with
      | @ended final last hsame => exact ⟨[b], last, .last hround, hsame⟩
  | more honward hrest ih =>
      have hrounds := h.round (hgiven _ List.mem_cons_self)
      rw [honward] at hrounds
      generalize hround : b.round engine = round at hrounds
      cases hrounds with
      | @onward next other hsame =>
          obtain ⟨others, last, hothers, hfinal⟩ := ih hsame fun turn hturn =>
            hgiven turn (List.mem_cons_of_mem _ hturn)
          exact ⟨b :: others, last, .more hround hothers, hfinal⟩

/-- If the model is never asked for arguments, turns that echo each other have the same response. -/
theorem Echoes.run (h : a.Echoes engine b)
    (hgiven : ∀ turn ∈ a.trail engine, ∀ frame step, turn.task engine = .dispatch frame step →
      step.ArgumentsGiven engine.registry) :
    (a.run engine).1.Echoes engine (b.run engine).1 ∧ (b.run engine).2 = (a.run engine).2 := by
  obtain ⟨others, last, hothers, hfinal⟩ := (runs_drive engine a).echoes h hgiven
  obtain ⟨-, rfl⟩ := runs_iff.1 hothers
  obtain ⟨hsession, hresponse⟩ := hfinal.session.collectScopes.flush
  exact ⟨hfinal.withSession hsession, hresponse⟩

end Turn

end Parley
