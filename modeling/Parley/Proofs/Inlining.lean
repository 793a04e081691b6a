import Parley.Proofs.Mentions
import Parley.Proofs.StepEffect

/-!
# Steps in a called flow and in its caller's place

Calling a flow that declares no variables is meant to be the same as writing its steps
where the call stands.  The steps that remain with the call and those that remain
without it are related by inlining.  A step that talks, sets a variable or branches does
the same at both places: it sees the same variables, and only the name of its flow and
the time may differ, which its texts do not mention.
-/

set_option autoImplicit false

namespace Parley

/-! ## Steps -/

/-- The step talks, sets a variable or branches, as the steps of its branches do, and all texts,
conditions and values are as required. -/
inductive Step.Textual (p : String → Prop) : Step → Prop where
  | say {id : String} {message : Wording} (texts : ∀ language, p (message.forLanguage language)) :
      Textual p (.say id message)
  | ask {id : String} {message : Wording} {target : Option String}
      (texts : ∀ language, p (message.forLanguage language)) : Textual p (.ask id message target)
  | set {id target : String} {value : Json} (texts : value.EachText p) :
      Textual p (.set id target value)
  | switch {id subject : String} {branches : List (String × Step)}
      (each : ∀ branch ∈ branches, Textual p branch.2) : Textual p (.switch id subject branches)
  | choose {id : String} {branches : List (Guard × Step)}
      (conditions : ∀ branch ∈ branches, ∀ source, branch.1 = .condition source → p source)
      (each : ∀ branch ∈ branches, Textual p branch.2) : Textual p (.choose id branches)

/-- The other steps are these with some calls replaced by what the steps of the called flow become
in the same way.  The called flows declare no variables, and all steps that are kept are textual
with plain texts. -/
inductive Step.Inlined (library : Library) : List Step → List Step → Prop where
  | nil : Inlined library [] []
  | kept {step : Step} {steps others : List Step} (hstep : step.Textual Template.Plain)
      (h : Inlined library steps others) : Inlined library (step :: steps) (step :: others)
  | called {id key : String} {flow : Definition} {body steps others : List Step}
      (hflow : library.get? key = some flow) (hvars : flow.vars = [])
      (hbody : Inlined library flow.steps body) (h : Inlined library steps others) :
      Inlined library (.callFlow id key .call :: steps) (body ++ others)

namespace Step

variable {library : Library} {steps others more later : List Step}

theorem Textual.yields {p : String → Prop} {step next : Step} (h : step.Textual p)
    (hyields : step.Yields next) : next.Textual p := by
  cases hyields with
  | branch hmem =>
      cases h with
      | switch each => exact each _ hmem
  | choice hmem =>
      cases h with
      | choose conditions each => exact each _ hmem
  | retry | handler => cases h

namespace Inlined

theorem append (h : Inlined library steps others) (h' : Inlined library more later) :
    Inlined library (steps ++ more) (others ++ later) := by
  induction h with
  | nil => exact h'
  | kept hstep hrest ih => exact .kept hstep ih
  | called hflow hvars hbody hrest ihbody ih =>
      rw [List.append_assoc]
      exact .called hflow hvars hbody ih

/-- Steps that call nothing stay as they are. -/
theorem of_textual (h : ∀ step ∈ steps, step.Textual Template.Plain) :
    Inlined library steps steps := by
  induction steps with
  | nil => exact .nil
  | cons step steps ih =>
      exact .kept (h step List.mem_cons_self) (ih fun next hnext =>
        h next (List.mem_cons_of_mem step hnext))

/-- A call among steps that call nothing is replaced by the steps of the called flow. -/
theorem call {id key : String} {flow : Definition} (hflow : library.get? key = some flow)
    (hvars : flow.vars = [])
    (h : ∀ step ∈ steps ++ flow.steps ++ more, step.Textual Template.Plain) :
    Inlined library (steps ++ .callFlow id key .call :: more) (steps ++ flow.steps ++ more) := by
  have hbefore : Inlined library steps steps :=
    of_textual fun step hstep => h step (by simp [hstep])
  have hbody : Inlined library flow.steps flow.steps :=
    of_textual fun step hstep => h step (by simp [hstep])
  have hafter : Inlined library more more := of_textual fun step hstep => h step (by simp [hstep])
  rw [List.append_assoc]
  exact hbefore.append (.called hflow hvars hbody hafter)

end Inlined

end Step

/-! ## Frames -/

/-- The frame neither waits for an answer nor comes back from an interruption. -/
structure Frame.Quiet (frame : Frame) : Prop where
  pending : frame.pendingVariable = none
  interruption : frame.pendingInterruption = none
  fresh : frame.justResumed = false

/-- The other frame stands in the same scope and has the same steps before it, up to inlining, and
the `later` ones after them.  Neither of them has been interrupted, both wait for the same answer,
and if they do, it is that to their next step. -/
structure Frame.Inlines (library : Library) (later : List Step) (a b : Frame) : Prop where
  steps : ∃ now, Step.Inlined library a.steps now ∧ b.steps = now ++ later
  scope : b.scope = a.scope
  pending : b.pendingVariable = a.pendingVariable
  waiting : ∀ target, a.pendingVariable = some target →
    ∃ id message rest, a.steps = .ask id message (some target) :: rest
  undisturbed : a.pendingInterruption = none ∧ b.pendingInterruption = none
  fresh : a.justResumed = false ∧ b.justResumed = false

namespace Frame.Inlines

variable {library : Library} {later : List Step} {a b : Frame}

/-- A frame whose next step is not a question that waits for its answer waits for none. -/
theorem quiet (h : a.Inlines library later b)
    (hnext : ∀ id message target rest, a.steps ≠ .ask id message (some target) :: rest) :
    a.pendingVariable = none := by
  cases hpending : a.pendingVariable with
  | none => rfl
  | some target =>
      obtain ⟨id, message, rest, hsteps⟩ := h.waiting target hpending
      exact absurd hsteps (hnext id message target rest)

/-- A step that is kept is the next one of both frames. -/
theorem next (h : a.Inlines library later b) {step : Step} {rest : List Step}
    (hstep : step.Textual Template.Plain) (hsteps : a.steps = step :: rest) :
    ∃ others, Step.Inlined library rest others ∧ b.steps = step :: (others ++ later) := by
  obtain ⟨now, hnow, hb⟩ := h.steps
  rw [hsteps] at hnow
  cases hnow with
  | kept hkept hrest => exact ⟨_, hrest, hb⟩
  | called hflow hvars hbody hrest => cases hstep

end Frame.Inlines

/-! ## Scenes -/

/-- Both scenes have the same variables, input and messages and come after the same invocations, and
their frames correspond. -/
structure Scene.Inlines (library : Library) (later : List Step) (a b : Scene) : Prop where
  frame : a.frame.Inlines library later b.frame
  vars : b.vars = a.vars
  input : b.input = a.input
  said : b.said = a.said
  invoked : b.journal.invoked = a.journal.invoked
  active : a.frame.transaction.state = .active ∧ b.frame.transaction.state = .active

/-- Both steps go on in the same way or wait for an answer, or both fail for the same reason, which
is that a branch is missing; in any case the scenes correspond. -/
structure Outcome.Inlines (library : Library) (later : List Step) (a b : Outcome) : Prop where
  scene : a.scene.Inlines library later b.scene
  next : b.next = a.next
  kind : a.next = .ok .proceed ∨ a.next = .ok .await ∨
    ∃ kind detail, a.next = .error (.noMatchingBranch kind detail)

/-- The other step takes place in the same session under the same engine. -/
structure Stage.Near (a b : Stage) : Prop where
  engine : b.engine = a.engine
  userId : b.userId = a.userId
  sessionId : b.sessionId = a.sessionId

namespace Scene.Inlines

variable {library : Library} {later : List Step} {a b : Scene} {stage other : Stage}

/-- Both scenes are near, as far as expressions can see. -/
theorem scopeIn (h : a.Inlines library later b) (hstage : stage.Near other) :
    (stage.scopeIn a).Near (other.scopeIn b) := by
  refine ⟨h.vars, hstage.userId, hstage.sessionId, ?_⟩
  simp only [Stage.scopeIn, hstage.engine]

theorem wordingIn (h : a.Inlines library later b) (hstage : stage.Near other) {message : Wording}
    (htexts : ∀ language, Template.Plain (message.forLanguage language)) :
    other.wordingIn b message = stage.wordingIn a message := by
  simp only [Stage.wordingIn, Stage.render, hstage.engine]
  exact Evaluator.interpolate_near (h.scopeIn hstage) (htexts _)

/-- The frames of both scenes may change as long as they correspond. -/
theorem withFrame (h : a.Inlines library later b) {frame other : Frame}
    (hframe : frame.Inlines library later other)
    (hactive : frame.transaction.state = .active ∧ other.transaction.state = .active) :
    (a.withFrame frame).Inlines library later (b.withFrame other) :=
  ⟨hframe, h.vars, h.input, h.said, h.invoked, hactive⟩

theorem display (h : a.Inlines library later b) (text : String) :
    (a.display text).Inlines library later (b.display text) :=
  h.withFrame { h.frame with steps := h.frame.steps } h.active

theorem logging (h : a.Inlines library later b) (record : StepRecord) :
    (a.logging record).Inlines library later (b.logging record) :=
  h.withFrame { h.frame with steps := h.frame.steps } h.active

theorem tell (h : a.Inlines library later b) (text : String) :
    (a.tell text).Inlines library later (b.tell text) :=
  { h with said := congrArg (· ++ [text]) h.said }

theorem store (h : a.Inlines library later b) (name : String) (value : Json) :
    (a.store name value).Inlines library later (b.store name value) :=
  { h with vars := congrArg (Table.set name value) h.vars }

theorem withoutInput (h : a.Inlines library later b) :
    ({ a with input := none } : Scene).Inlines library later { b with input := none } :=
  { h with input := rfl }

theorem withoutResumption (h : a.Inlines library later b) :
    (a.withFrame { a.frame with justResumed := false }).Inlines library later
      (b.withFrame { b.frame with justResumed := false }) :=
  h.withFrame { h.frame with fresh := ⟨rfl, rfl⟩ } h.active

/-- Neither frame waits for an answer any more. -/
theorem withoutPending (h : a.Inlines library later b) :
    (a.withFrame { a.frame with pendingVariable := none }).Inlines library later
      (b.withFrame { b.frame with pendingVariable := none }) := by
  refine h.withFrame { h.frame with pending := rfl, waiting := ?_ } h.active
  rintro target ⟨⟩

/-- Both frames begin to wait for the answer to their next step. -/
theorem withPending (h : a.Inlines library later b) {id : String} {message : Wording}
    {target : String} {rest : List Step}
    (hnext : a.frame.steps = .ask id message (some target) :: rest) :
    (a.withFrame { a.frame with pendingVariable := some target }).Inlines library later
      (b.withFrame { b.frame with pendingVariable := some target }) := by
  refine h.withFrame { h.frame with pending := rfl, waiting := ?_ } h.active
  intro waiting hwaiting
  cases hwaiting
  exact ⟨id, message, rest, hnext⟩

/-- Both frames are done with a step that is kept and waits for no answer. -/
theorem popStep (h : a.Inlines library later b) {step : Step} {rest : List Step}
    (hstep : step.Textual Template.Plain) (hsteps : a.frame.steps = step :: rest)
    (hquiet : a.frame.pendingVariable = none) : a.popStep.Inlines library later b.popStep := by
  obtain ⟨others, hothers, hb⟩ := h.frame.next hstep hsteps
  refine h.withFrame { h.frame with steps := ⟨others, ?_, ?_⟩, waiting := ?_ } h.active
  · simpa [Frame.popStep, hsteps] using hothers
  · simp [Frame.popStep, hb]
  · intro target hwaiting
    cases hquiet.symm.trans hwaiting

theorem pushStep (h : a.Inlines library later b) {step : Step}
    (hstep : step.Textual Template.Plain) (hquiet : a.frame.pendingVariable = none) :
    (a.pushStep step).Inlines library later (b.pushStep step) := by
  obtain ⟨now, hnow, hb⟩ := h.frame.steps
  refine h.withFrame { h.frame with steps := ⟨step :: now, .kept hstep hnow, ?_⟩, waiting := ?_ }
    h.active
  · simp [Frame.pushStep, hb]
  · intro target hwaiting
    cases hquiet.symm.trans hwaiting

/-- A step that is kept is finished in both scenes. -/
theorem finished (h : a.Inlines library later b) {step : Step} {rest : List Step}
    (hstep : step.Textual Template.Plain) (hsteps : a.frame.steps = step :: rest)
    (hquiet : a.frame.pendingVariable = none) (kind : StepKind) (id : String)
    {next : Scene → Outcome}
    (hnext : ∀ a b : Scene, a.Inlines library later b → a.frame.pendingVariable = none →
      (next a).Inlines library later (next b)) :
    (a.finished kind id next).Inlines library later (b.finished kind id next) := by
  rw [finished_of_active h.active.1, finished_of_active h.active.2]
  exact hnext _ _ ((h.popStep hstep hsteps hquiet).logging _) hquiet

theorem proceed (h : a.Inlines library later b) :
    (a.outcome .proceed).Inlines library later (b.outcome .proceed) :=
  ⟨h, rfl, .inl rfl⟩

theorem await (h : a.Inlines library later b) :
    (a.outcome .await).Inlines library later (b.outcome .await) :=
  ⟨h, rfl, .inr (.inl rfl)⟩

end Scene.Inlines

/-! ## What steps do -/

namespace Stage

variable {library : Library} {later : List Step} {a b : Scene} {stage other : Stage} {step : Step}
  {rest : List Step}

theorem say_inlines (h : a.Inlines library later b) (hstage : stage.Near other) {id : String}
    {message : Wording} (hstep : (Step.say id message).Textual Template.Plain)
    (hsteps : a.frame.steps = .say id message :: rest) :
    (stage.say id message a).Inlines library later (other.say id message b) := by
  have hquiet : a.frame.pendingVariable = none := h.frame.quiet (by simp [hsteps])
  cases hstep with
  | say htexts =>
      rw [Stage.say, Stage.say, h.wordingIn hstage htexts]
      exact ((h.display _).tell _).finished (.say htexts) hsteps hquiet _ _
        fun _ _ hpopped _ => hpopped.proceed

theorem question_near (hstage : stage.Near other) (resumed : Bool) (text : String) :
    other.question resumed text = stage.question resumed text := by
  simp only [question, hstage.engine]

theorem prompt_inlines (h : a.Inlines library later b) (hstage : stage.Near other) {id : String}
    {message : Wording} {target : Option String}
    (htexts : ∀ language, Template.Plain (message.forLanguage language))
    (hsteps : a.frame.steps = .ask id message target :: rest) :
    (stage.prompt id message target a).Inlines library later
      (other.prompt id message target b) := by
  have hquestion : other.question b.frame.justResumed (stage.wordingIn a message) =
      stage.question a.frame.justResumed (stage.wordingIn a message) := by
    rw [h.frame.fresh.1, h.frame.fresh.2, question_near hstage]
  have hasking := h.withoutResumption.display (stage.wordingIn a message)
  unfold prompt
  simp only [h.wordingIn hstage htexts, hquestion]
  cases target with
  | some target => exact ((hasking.withPending hsteps).tell _).await
  | none =>
      have hquiet : a.frame.pendingVariable = none := h.frame.quiet (by simp [hsteps])
      exact hasking.finished (.ask htexts) hsteps hquiet _ _
        fun _ _ hpopped _ => (hpopped.tell _).await

theorem answer_inlines (h : a.Inlines library later b) {id target : String} {message : Wording}
    {receiver : Option String} (hstep : (Step.ask id message receiver).Textual Template.Plain)
    (hsteps : a.frame.steps = .ask id message receiver :: rest) (input : String) :
    (answer id target input a).Inlines library later (answer id target input b) :=
  ((h.withoutInput.store target (.str input)).withoutPending).finished hstep hsteps rfl _ _
    fun _ _ hpopped _ => hpopped.proceed

theorem ask_inlines (h : a.Inlines library later b) (hstage : stage.Near other) {id : String}
    {message : Wording} {target : Option String}
    (hstep : (Step.ask id message target).Textual Template.Plain)
    (hsteps : a.frame.steps = .ask id message target :: rest) :
    (stage.ask id message target a).Inlines library later (other.ask id message target b) := by
  unfold Stage.ask
  rw [h.frame.pending, h.input]
  split
  · exact answer_inlines h hstep hsteps _
  · cases hstep with
    | ask htexts => exact prompt_inlines h hstage htexts hsteps

theorem set_inlines (h : a.Inlines library later b) (hstage : stage.Near other)
    {id target : String} {value : Json} (hstep : (Step.set id target value).Textual Template.Plain)
    (hsteps : a.frame.steps = .set id target value :: rest) :
    (stage.set id target value a).Inlines library later (other.set id target value b) := by
  have hquiet : a.frame.pendingVariable = none := h.frame.quiet (by simp [hsteps])
  cases hstep with
  | set htexts =>
      have hvalue : other.resolve b value = stage.resolve a value := by
        simp only [Stage.resolve, hstage.engine]
        exact Evaluator.resolve_near (h.scopeIn hstage) htexts
      rw [Stage.set, Stage.set, hvalue]
      exact (h.store target _).finished (.set htexts) hsteps hquiet _ _
        fun _ _ hpopped _ => hpopped.proceed

/-- A branch is taken in both scenes, or is missing in both. -/
theorem takeBranch_inlines (h : a.Inlines library later b)
    (hstep : step.Textual Template.Plain) (hsteps : a.frame.steps = step :: rest)
    (hquiet : a.frame.pendingVariable = none) (kind : StepKind) (id missing : String)
    {branch : Option Step} (hbranch : ∀ next ∈ branch, step.Yields next) :
    (takeBranch kind id branch missing a).Inlines library later
      (takeBranch kind id branch missing b) := by
  cases branch with
  | none => exact ⟨h, rfl, .inr (.inr ⟨kind, missing, rfl⟩)⟩
  | some next =>
      have hnext : next.Textual Template.Plain := hstep.yields (hbranch next rfl)
      exact h.finished hstep hsteps hquiet kind id
        fun _ _ hpopped hnone => (hpopped.pushStep hnext hnone).proceed

theorem switch_inlines (h : a.Inlines library later b) {id subject : String}
    {branches : List (String × Step)}
    (hstep : (Step.switch id subject branches).Textual Template.Plain)
    (hsteps : a.frame.steps = .switch id subject branches :: rest) :
    (Stage.switch id subject branches a).Inlines library later
      (Stage.switch id subject branches b) := by
  have hquiet : a.frame.pendingVariable = none := h.frame.quiet (by simp [hsteps])
  unfold Stage.switch
  rw [h.vars]
  apply takeBranch_inlines h hstep hsteps hquiet
  intro next hnext
  obtain ⟨key, hmem⟩ := branchFor?_mem hnext
  exact .branch hmem

/-- The same branch is taken if all conditions hold alike. -/
theorem choiceFor?_congr {left right : String → Bool} {branches : List (Guard × Step)}
    (h : ∀ branch ∈ branches, ∀ source, branch.1 = .condition source →
      right source = left source) :
    choiceFor? right branches = choiceFor? left branches := by
  unfold choiceFor?
  simp only
  congr 2
  apply List.find?_congr
  rintro ⟨guard, next⟩ hmem
  cases guard with
  | condition source => exact h _ hmem source rfl
  | otherwise => rfl

theorem choose_inlines (h : a.Inlines library later b) (hstage : stage.Near other) {id : String}
    {branches : List (Guard × Step)}
    (hstep : (Step.choose id branches).Textual Template.Plain)
    (hsteps : a.frame.steps = .choose id branches :: rest) :
    (stage.choose id branches a).Inlines library later (other.choose id branches b) := by
  have hquiet : a.frame.pendingVariable = none := h.frame.quiet (by simp [hsteps])
  have hchoice : choiceFor? (other.engine.evaluator.holds (other.scopeIn b)) branches =
      choiceFor? (stage.engine.evaluator.holds (stage.scopeIn a)) branches := by
    cases hstep with
    | choose conditions each =>
        apply choiceFor?_congr
        intro branch hmem source hsource
        rw [hstage.engine]
        exact Evaluator.holds_near (h.scopeIn hstage) (conditions branch hmem source hsource)
  unfold Stage.choose
  simp only [hchoice]
  apply takeBranch_inlines h hstep hsteps hquiet
  intro next hnext
  obtain ⟨guard, hmem⟩ := choiceFor?_mem hnext
  exact .choice hmem

end Stage

/-- A step that is kept does the same in both scenes. -/
theorem Turn.perform_inlines {library : Library} {later : List Step} {a b : Scene}
    {stage other : Stage} {step : Step} {rest : List Step} (h : a.Inlines library later b)
    (hstage : stage.Near other) (hstep : step.Textual Template.Plain)
    (hsteps : a.frame.steps = step :: rest) :
    (perform stage step a).Inlines library later (perform other step b) := by
  cases hstep with
  | say htexts => exact Stage.say_inlines h hstage (.say htexts) hsteps
  | ask htexts => exact Stage.ask_inlines h hstage (.ask htexts) hsteps
  | set htexts => exact Stage.set_inlines h hstage (.set htexts) hsteps
  | switch each => exact Stage.switch_inlines h (.switch each) hsteps
  | choose conditions each => exact Stage.choose_inlines h hstage (.choose conditions each) hsteps

end Parley
