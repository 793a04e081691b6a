import Mathlib.Logic.Function.Basic
import Parley.Proofs.Rounds

/-!
# Steps under a renaming of scopes

A step hands the number of its frame's scope on and never looks at it, and of the
journal it sees only what the model, the tools and the clock answer.  So a step in a
scene whose frame stands in a scope of another number, after another past that is
answered alike from now on, does the same up to that number and that past.  Nor does
it look at the conversation that its frame has seen, unless it asks the model for the
arguments of a tool.
-/

set_option autoImplicit false

namespace Parley

/-! ## Journals -/

namespace Journal

/-- The journal after what happened in another one has happened too. -/
def followedBy (journal more : Journal) : Journal :=
  ⟨journal.clock + more.clock, journal.asked ++ more.asked, journal.invoked ++ more.invoked⟩

theorem followedBy_empty (journal : Journal) : journal.followedBy .empty = journal := by
  simp [followedBy, empty]

theorem followedBy_followedBy (journal more most : Journal) :
    (journal.followedBy more).followedBy most = journal.followedBy (more.followedBy most) := by
  simp [followedBy, Nat.add_assoc]

theorem later_eq (journal : Journal) (duration : Nat) :
    journal.later duration = journal.followedBy ⟨duration, [], []⟩ := by
  simp [later, followedBy]

theorem noteQuestion_eq (journal : Journal) (question : Question) :
    journal.noteQuestion question = journal.followedBy ⟨0, [question], []⟩ := by
  simp [noteQuestion, followedBy]

theorem noteInvocation_eq (journal : Journal) (invocation : Invocation) :
    journal.noteInvocation invocation = journal.followedBy ⟨0, [], [invocation]⟩ := by
  simp [noteInvocation, followedBy]

end Journal

namespace Engine

/-- Whatever happens from now on, the model, the tools and the clock answer the same after both
journals. -/
structure AnswersAlike (engine : Engine) (a b : Journal) : Prop where
  model : ∀ more, engine.model (b.followedBy more) = engine.model (a.followedBy more)
  invoker : ∀ more, engine.invoker (b.followedBy more) = engine.invoker (a.followedBy more)
  now : ∀ more, engine.now (b.followedBy more) = engine.now (a.followedBy more)

namespace AnswersAlike

variable {engine : Engine} {a b : Journal}

theorem followedBy (h : engine.AnswersAlike a b) (more : Journal) :
    engine.AnswersAlike (a.followedBy more) (b.followedBy more) := by
  constructor
  · intro most
    rw [Journal.followedBy_followedBy, Journal.followedBy_followedBy]
    exact h.model _
  · intro most
    rw [Journal.followedBy_followedBy, Journal.followedBy_followedBy]
    exact h.invoker _
  · intro most
    rw [Journal.followedBy_followedBy, Journal.followedBy_followedBy]
    exact h.now _

theorem later (h : engine.AnswersAlike a b) (duration : Nat) :
    engine.AnswersAlike (a.later duration) (b.later duration) := by
  rw [Journal.later_eq, Journal.later_eq]
  exact h.followedBy _

theorem now_eq (h : engine.AnswersAlike a b) : engine.now b = engine.now a := by
  have hnow := h.now .empty
  rwa [Journal.followedBy_empty, Journal.followedBy_empty] at hnow

/-- The model gives the same reply to a question. -/
theorem ask (h : engine.AnswersAlike a b) (question : Question) :
    (engine.ask b question).2 = (engine.ask a question).2 ∧
      engine.AnswersAlike (engine.ask a question).1 (engine.ask b question).1 := by
  have hmodel := h.model .empty
  rw [Journal.followedBy_empty, Journal.followedBy_empty] at hmodel
  unfold Engine.ask
  simp only [hmodel, Journal.noteQuestion_eq]
  exact ⟨trivial, (h.followedBy _).later _⟩

/-- A tool gives the same result. -/
theorem invoke (h : engine.AnswersAlike a b) (tool : Tool) (args : Json) (userId : String) :
    (engine.invoke b tool args userId).2 = (engine.invoke a tool args userId).2 ∧
      engine.AnswersAlike (engine.invoke a tool args userId).1
        (engine.invoke b tool args userId).1 := by
  have hinvoker := h.invoker .empty
  rw [Journal.followedBy_empty, Journal.followedBy_empty] at hinvoker
  unfold Engine.invoke
  simp only [hinvoker, Journal.noteInvocation_eq]
  exact ⟨trivial, (h.followedBy _).later _⟩

end AnswersAlike

end Engine

/-! ## Frames and levels -/

/-- The frame in the scope that has its number under the renaming. -/
def Frame.renamed (rename : Nat → Nat) (frame : Frame) : Frame :=
  { frame with scope := rename frame.scope }

/-- How a turn goes on with a frame that is renamed. -/
def Next.renamed (rename : Nat → Nat) : Next → Next
  | .enter frame => .enter (frame.renamed rename)
  | next => next

/-! ## Scenes -/

/-- The other scene is this one with its frame renamed, after a journal that is answered alike.  The
frames have seen the same conversation if `shared` holds, and may have seen different ones else. -/
inductive Scene.Mirrors (engine : Engine) (rename : Nat → Nat) (shared : Prop) (a : Scene) :
    Scene → Prop where
  | intro (context : List Entry) (journal : Journal) (hcontext : shared → context = a.frame.context)
      (h : engine.AnswersAlike a.journal journal) :
      Mirrors engine rename shared a
        { a with
          frame := { a.frame.renamed rename with context := context }
          journal := journal }

/-- The other outcome is this one with the frames renamed. -/
structure Outcome.Mirrors (engine : Engine) (rename : Nat → Nat) (shared : Prop)
    (a b : Outcome) : Prop where
  scene : a.scene.Mirrors engine rename shared b.scene
  next : b.next = a.next.map (Next.renamed rename)

/-- The model is not asked for the arguments if the step calls a tool. -/
def Step.ArgumentsGiven (registry : Registry) (step : Step) : Prop :=
  ∀ id call onFail, step = .callTool id call onFail → ∀ tool,
    registry.get? call.tool = some tool → tool.hasParameters = true → call.args ≠ none

/-- Conversations that are the same are the same after a further entry. -/
theorem recorded_of_shared {shared : Prop} {context other : List Entry}
    (h : shared → context = other) (entry : Entry) :
    shared → context ++ [entry] = other ++ [entry] :=
  fun hshared => congrArg (· ++ [entry]) (h hshared)

namespace Scene.Mirrors

variable {engine : Engine} {rename : Nat → Nat} {shared : Prop} {a b : Scene}

theorem outcome (h : a.Mirrors engine rename shared b) (next : Next) :
    (a.outcome next).Mirrors engine rename shared (b.outcome (next.renamed rename)) :=
  ⟨h, rfl⟩

theorem failure (h : a.Mirrors engine rename shared b) (error : EngineError) :
    (a.failure error).Mirrors engine rename shared (b.failure error) :=
  ⟨h, rfl⟩

theorem logged (h : a.Mirrors engine rename shared b) (record : StepRecord) {next : Scene → Outcome}
    (hnext : ∀ a b : Scene, a.Mirrors engine rename shared b →
      (next a).Mirrors engine rename shared (next b)) :
    (a.logged record next).Mirrors engine rename shared (b.logged record next) := by
  obtain ⟨context, journal, hcontext, h⟩ := h
  have hlog : ({ a with frame := a.frame.renamed rename, journal := journal } :
      Scene).frame.transaction.log record = a.frame.transaction.log record := rfl
  unfold Scene.logged
  rw [hlog]
  cases a.frame.transaction.log record with
  | error e => exact ⟨.intro context journal hcontext h, rfl⟩
  | ok transaction =>
      refine hnext (a.withFrame { a.frame with transaction := transaction }) _ ?_
      exact .intro context journal hcontext h

theorem finished (h : a.Mirrors engine rename shared b) (kind : StepKind) (id : String)
    {next : Scene → Outcome}
    (hnext : ∀ a b : Scene, a.Mirrors engine rename shared b →
      (next a).Mirrors engine rename shared (next b)) :
    (a.finished kind id next).Mirrors engine rename shared (b.finished kind id next) := by
  have hpopped : a.popStep.Mirrors engine rename shared b.popStep := by
    obtain ⟨context, journal, hcontext, h⟩ := h
    exact .intro context journal hcontext h
  exact hpopped.logged _ hnext

variable {stage : Stage}

/-- Expressions see the same variables, names and time. -/
theorem scopeIn (h : a.Mirrors stage.engine rename shared b) :
    stage.scopeIn b = stage.scopeIn a := by
  obtain ⟨context, journal, hcontext, h⟩ := h
  simp only [Stage.scopeIn, h.now_eq]
  rfl

theorem wordingIn (h : a.Mirrors stage.engine rename shared b) (message : Wording) :
    stage.wordingIn b message = stage.wordingIn a message := by
  simp only [Stage.wordingIn, Stage.render, h.scopeIn]

theorem resolve (h : a.Mirrors stage.engine rename shared b) (value : Json) :
    stage.resolve b value = stage.resolve a value := by
  simp only [Stage.resolve, h.scopeIn]

end Scene.Mirrors

/-! ## The handlers -/

namespace Stage

variable {stage : Stage} {rename : Nat → Nat} {shared : Prop} {a b : Scene}

theorem say_mirrors (h : a.Mirrors stage.engine rename shared b) (id : String) (message : Wording) :
    (stage.say id message a).Mirrors stage.engine rename shared (stage.say id message b) := by
  have htext := h.wordingIn message
  simp only [say, htext]
  have hshown : ((a.display (stage.wordingIn a message)).tell
      (stage.wordingIn a message)).Mirrors stage.engine rename shared
        ((b.display (stage.wordingIn a message)).tell (stage.wordingIn a message)) := by
    obtain ⟨context, journal, hcontext, h⟩ := h
    exact .intro _ journal (recorded_of_shared hcontext _) h
  exact hshown.finished _ _ fun _ _ h => h.outcome .proceed

theorem prompt_mirrors (h : a.Mirrors stage.engine rename shared b) (id : String)
    (message : Wording) (target : Option String) :
    (stage.prompt id message target a).Mirrors stage.engine rename shared
      (stage.prompt id message target b) := by
  have htext := h.wordingIn message
  have hasking : ((a.withFrame { a.frame with justResumed := false }).display
      (stage.wordingIn a message)).Mirrors stage.engine rename shared
        ((b.withFrame { b.frame with justResumed := false }).display
          (stage.wordingIn a message)) := by
    obtain ⟨context, journal, hcontext, h⟩ := h
    exact .intro _ journal (recorded_of_shared hcontext _) h
  have hresumed : b.frame.justResumed = a.frame.justResumed := by
    obtain ⟨context, journal, hcontext, h⟩ := h
    rfl
  simp only [prompt, htext, hresumed]
  cases target with
  | some target =>
      obtain ⟨context, journal, hcontext, h⟩ := h
      exact ⟨.intro _ journal (recorded_of_shared hcontext _) h, rfl⟩
  | none =>
      refine hasking.finished _ _ fun _ _ h => ?_
      obtain ⟨context, journal, hcontext, h⟩ := h
      exact ⟨.intro context journal hcontext h, rfl⟩

theorem answer_mirrors (h : a.Mirrors stage.engine rename shared b) (id target input : String) :
    (answer id target input a).Mirrors stage.engine rename shared (answer id target input b) := by
  obtain ⟨context, journal, hcontext, h⟩ := h
  unfold answer
  refine Scene.Mirrors.finished ?_ _ _ fun _ _ h => h.outcome .proceed
  exact .intro context journal hcontext h

theorem ask_mirrors (h : a.Mirrors stage.engine rename shared b) (id : String) (message : Wording)
    (target : Option String) :
    (stage.ask id message target a).Mirrors stage.engine rename shared
      (stage.ask id message target b) := by
  have hpending : b.frame.pendingVariable = a.frame.pendingVariable ∧ b.input = a.input := by
    obtain ⟨context, journal, hcontext, h⟩ := h
    exact ⟨rfl, rfl⟩
  unfold ask
  rw [hpending.1, hpending.2]
  cases a.frame.pendingVariable with
  | none => exact prompt_mirrors h id message target
  | some waiting =>
      cases a.input with
      | none => exact prompt_mirrors h id message target
      | some input => exact answer_mirrors h id waiting input

theorem set_mirrors (h : a.Mirrors stage.engine rename shared b) (id target : String)
    (value : Json) :
    (stage.set id target value a).Mirrors stage.engine rename shared
      (stage.set id target value b) := by
  have hvalue := h.resolve value
  simp only [set, hvalue]
  refine Scene.Mirrors.finished ?_ _ _ fun _ _ h => h.outcome .proceed
  obtain ⟨context, journal, hcontext, h⟩ := h
  exact .intro context journal hcontext h

theorem takeBranch_mirrors (h : a.Mirrors stage.engine rename shared b) (kind : StepKind)
    (id : String) (branch : Option Step) (missing : String) :
    (takeBranch kind id branch missing a).Mirrors stage.engine rename shared
      (takeBranch kind id branch missing b) := by
  cases branch with
  | none => exact h.failure _
  | some step =>
      refine h.finished _ _ fun _ _ h => ?_
      obtain ⟨context, journal, hcontext, h⟩ := h
      exact ⟨.intro context journal hcontext h, rfl⟩

theorem switch_mirrors (h : a.Mirrors stage.engine rename shared b) (id subject : String)
    (branches : List (String × Step)) :
    (Stage.switch id subject branches a).Mirrors stage.engine rename shared
      (Stage.switch id subject branches b) := by
  have hvars : b.vars = a.vars := by
    obtain ⟨context, journal, hcontext, h⟩ := h
    rfl
  simp only [Stage.switch, hvars]
  exact takeBranch_mirrors h _ id _ _

theorem choose_mirrors (h : a.Mirrors stage.engine rename shared b) (id : String)
    (branches : List (Guard × Step)) :
    (stage.choose id branches a).Mirrors stage.engine rename shared
      (stage.choose id branches b) := by
  have hscope := h.scopeIn
  simp only [choose, hscope]
  exact takeBranch_mirrors h _ id _ _

/-! ### Calls of tools -/

theorem argumentsOf_mirrors (h : a.Mirrors stage.engine rename shared b) (call : ToolCall)
    (tool : Tool) (hgiven : shared ∨ (tool.hasParameters = true → call.args ≠ none)) :
    (stage.argumentsOf call tool b).2 = (stage.argumentsOf call tool a).2 ∧
      stage.engine.AnswersAlike (stage.argumentsOf call tool a).1
        (stage.argumentsOf call tool b).1 := by
  have hresolve := h.resolve
  obtain ⟨context, journal, hcontext, h⟩ := h
  unfold argumentsOf
  cases hargs : call.args with
  | some args => exact ⟨congrArg Except.ok (hresolve args), h⟩
  | none =>
      simp only [inferArguments]
      split
      · -- only here a step looks at the conversation that its frame has seen
        rename_i hparameters
        have hshared : shared := hgiven.resolve_right fun hnone => hnone hparameters hargs
        obtain rfl := hcontext hshared
        obtain ⟨hreply, hjournals⟩ := h.ask ⟨tool.argumentInstruction, a.argumentMessage⟩
        exact ⟨congrArg (argumentsIn tool) hreply, hjournals⟩
      · exact ⟨rfl, h⟩

theorem attempt_mirrors (h : a.Mirrors stage.engine rename shared b) (call : ToolCall)
    (tool : Tool) (hgiven : shared ∨ (tool.hasParameters = true → call.args ≠ none)) :
    (stage.attempt call tool b).2 = (stage.attempt call tool a).2 ∧
      stage.engine.AnswersAlike (stage.attempt call tool a).1 (stage.attempt call tool b).1 := by
  obtain ⟨hargs, hjournals⟩ := argumentsOf_mirrors h call tool hgiven
  unfold attempt
  generalize stage.argumentsOf call tool a = left at hargs hjournals ⊢
  generalize stage.argumentsOf call tool b = right at hargs hjournals ⊢
  obtain ⟨journal, result⟩ := left
  obtain ⟨journal', result'⟩ := right
  obtain rfl : result' = result := hargs
  cases result' with
  | error failure => exact ⟨rfl, hjournals⟩
  | ok args => exact hjournals.invoke tool args stage.userId

theorem callSucceeded_mirrors (h : a.Mirrors stage.engine rename shared b) (id : String)
    (call : ToolCall) (tool : Tool) (result : Json) :
    (callSucceeded id call tool result a).Mirrors stage.engine rename shared
      (callSucceeded id call tool result b) := by
  unfold callSucceeded
  refine Scene.Mirrors.logged ?_ _ fun _ _ h => h.outcome .proceed
  obtain ⟨context, journal, hcontext, h⟩ := h
  cases call.target with
  | none => exact .intro _ journal (recorded_of_shared hcontext _) h
  | some target => exact .intro _ journal (recorded_of_shared hcontext _) h

theorem callAgain_mirrors (h : a.Mirrors stage.engine rename shared b) (id : String)
    (call : ToolCall) (onFail : Option Step) (failure : ToolFailure) (delay : Nat) :
    (callAgain id call onFail failure delay a).Mirrors stage.engine rename shared
      (callAgain id call onFail failure delay b) := by
  refine h.logged _ fun _ _ h => ?_
  obtain ⟨context, journal, hcontext, h⟩ := h
  exact ⟨.intro context _ hcontext (h.later delay), rfl⟩

theorem callGivenUp_mirrors (h : a.Mirrors stage.engine rename shared b) (id : String)
    (call : ToolCall) (onFail : Option Step) (failure : ToolFailure) :
    (stage.callGivenUp id call onFail failure a).Mirrors stage.engine rename shared
      (stage.callGivenUp id call onFail failure b) := by
  refine h.logged _ fun _ _ h => ?_
  obtain ⟨context, journal, hcontext, h⟩ := h
  cases call.target with
  | none => cases onFail <;> exact ⟨.intro _ journal (recorded_of_shared hcontext _) h, rfl⟩
  | some target => cases onFail <;> exact ⟨.intro _ journal (recorded_of_shared hcontext _) h, rfl⟩

theorem callFailed_mirrors (h : a.Mirrors stage.engine rename shared b) (id : String)
    (call : ToolCall) (onFail : Option Step) (failure : ToolFailure) :
    (stage.callFailed id call onFail failure a).Mirrors stage.engine rename shared
      (stage.callFailed id call onFail failure b) := by
  have hflow : b.frame.flowName = a.frame.flowName := by
    obtain ⟨context, journal, hcontext, h⟩ := h
    rfl
  simp only [callFailed, hflow]
  split
  · exact callAgain_mirrors h id call onFail failure _
  · exact callGivenUp_mirrors h id call onFail failure

theorem callTool_mirrors (h : a.Mirrors stage.engine rename shared b) (id : String)
    (call : ToolCall) (onFail : Option Step)
    (hgiven : shared ∨ (Step.callTool id call onFail).ArgumentsGiven stage.engine.registry) :
    (stage.callTool id call onFail a).Mirrors stage.engine rename shared
      (stage.callTool id call onFail b) := by
  unfold callTool
  cases htool : stage.engine.registry.get? call.tool with
  | none => exact callFailed_mirrors h id call onFail _
  | some tool =>
      obtain ⟨hresult, hjournals⟩ := attempt_mirrors h call tool
        (hgiven.imp_right fun hargs => hargs id call onFail rfl tool htool)
      have hafter : ({ a with journal := (stage.attempt call tool a).1 } : Scene).Mirrors
          stage.engine rename shared { b with journal := (stage.attempt call tool b).1 } := by
        obtain ⟨context, journal, hcontext, h⟩ := h
        exact .intro context _ hcontext hjournals
      simp only
      generalize stage.attempt call tool a = left at hresult hafter ⊢
      generalize stage.attempt call tool b = right at hresult hafter ⊢
      obtain ⟨journal, result⟩ := left
      obtain ⟨journal', result'⟩ := right
      obtain rfl : result' = result := hresult
      cases result' with
      | ok result => exact callSucceeded_mirrors hafter id call tool result
      | error failure => exact callFailed_mirrors hafter id call onFail failure

/-! ### Handing over -/

theorem unknownFlow_mirrors (h : a.Mirrors stage.engine rename shared b) (id key : String)
    (callType : CallType) :
    (stage.unknownFlow id key callType a).Mirrors stage.engine rename shared
      (stage.unknownFlow id key callType b) := by
  cases callType with
  | reboot =>
      obtain ⟨context, journal, hcontext, h⟩ := h
      exact ⟨.intro context journal hcontext h, rfl⟩
  | call | replace =>
      refine h.finished _ _ fun _ _ h => ?_
      obtain ⟨context, journal, hcontext, h⟩ := h
      exact ⟨.intro context journal hcontext h, rfl⟩

theorem call_mirrors (h : a.Mirrors stage.engine rename shared b) (id : String)
    (flow : Definition) :
    (stage.call id flow a).Mirrors stage.engine rename shared (stage.call id flow b) := by
  simp only [call]
  split
  · exact h.failure _
  · refine h.finished _ _ fun _ _ h => ?_
    obtain ⟨context, journal, hcontext, h⟩ := h
    exact ⟨.intro context journal hcontext h, rfl⟩

theorem replace_mirrors (h : a.Mirrors stage.engine rename shared b) (id : String)
    (flow : Definition) :
    (stage.replace id flow a).Mirrors stage.engine rename shared (stage.replace id flow b) := by
  refine h.finished _ _ fun a _ h => ?_
  obtain ⟨context, journal, hcontext, h⟩ := h
  have htransaction : (a.frame.renamed rename).transaction = a.frame.transaction := rfl
  simp only [htransaction]
  cases a.frame.transaction.ifOpen fun transaction => transaction.fail replacedReason with
  | error e => exact ⟨.intro context journal hcontext h, rfl⟩
  | ok closed => exact ⟨.intro context journal hcontext h, rfl⟩

theorem callFlow_mirrors (h : a.Mirrors stage.engine rename shared b) (id key : String)
    (callType : CallType) :
    (stage.callFlow id key callType a).Mirrors stage.engine rename shared
      (stage.callFlow id key callType b) := by
  unfold callFlow
  cases stage.engine.library.get? key with
  | none => exact unknownFlow_mirrors h id key callType
  | some flow =>
      cases callType with
      | call => exact call_mirrors h id flow
      | replace => exact replace_mirrors h id flow
      | reboot => exact h.outcome _

end Stage

/-- Every step does the same in a scene that mirrors another one, whatever its frame has heard,
unless the model has to be told of it. -/
theorem Turn.perform_mirrors {stage : Stage} {rename : Nat → Nat} {shared : Prop} {a b : Scene}
    (h : a.Mirrors stage.engine rename shared b) (step : Step)
    (hgiven : shared ∨ step.ArgumentsGiven stage.engine.registry) :
    (Turn.perform stage step a).Mirrors stage.engine rename shared
      (Turn.perform stage step b) := by
  cases step with
  | say id message => exact Stage.say_mirrors h id message
  | ask id message target => exact Stage.ask_mirrors h id message target
  | set id target value => exact Stage.set_mirrors h id target value
  | switch id subject branches => exact Stage.switch_mirrors h id subject branches
  | choose id branches => exact Stage.choose_mirrors h id branches
  | callTool id call onFail => exact Stage.callTool_mirrors h id call onFail hgiven
  | callFlow id key callType => exact Stage.callFlow_mirrors h id key callType

end Parley
