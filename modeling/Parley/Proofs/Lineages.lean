import Parley.Proofs.Conversations
import Parley.Proofs.Tasks

/-!
# Where frames come from

Whatever happens to a frame while a turn runs is one of a few things: its transaction
takes a record, it is handed to another flow, it is interrupted or goes on, and for
the rest its scope and its transactions are left alone.  So every frame of a session
goes back to one that was there before, or to one that was started in between, and
that one stands in the scope of an older frame or in a scope with a number that has
not been given before.  This holds in every session, in order or not, so it can be
used for sessions that come from outside.
-/

set_option autoImplicit false

namespace Parley

namespace Transaction

/-- A transaction that is still open can be failed, and keeps its records. -/
theorem ifOpen_fail (transaction : Transaction) (reason : String) :
    ∃ closed, (transaction.ifOpen fun former => former.fail reason) = .ok closed ∧
      closed.steps = transaction.steps := by
  by_cases hactive : transaction.isActive
  · simp [ifOpen, fail, finish, ifActive, hactive]
  · simp [ifOpen, hactive]

end Transaction

namespace Frame

/-- What can become of a frame while it is there. -/
inductive Becomes (first : Frame) : Frame → Prop where
  /-- Nothing has happened to it yet. -/
  | same : Becomes first first
  /-- It stays in its scope, and its transactions are left alone. -/
  | edited {frame after : Frame} (h : Becomes first frame) (hscope : after.scope = frame.scope)
      (htransaction : after.transaction = frame.transaction)
      (hreplaced : after.replaced = frame.replaced) : Becomes first after
  /-- Its transaction takes a record. -/
  | logged {frame : Frame} {record : StepRecord} {transaction : Transaction}
      (h : Becomes first frame) (hlog : frame.transaction.log record = .ok transaction) :
      Becomes first { frame with transaction := transaction }
  /-- It is handed to another flow, and its transaction is put away. -/
  | handed {frame : Frame} {closed : Transaction} (h : Becomes first frame) (flow : Definition)
      (initiator userId : String)
      (hclosed : (frame.transaction.ifOpen fun former => former.fail Stage.replacedReason) =
        .ok closed) :
      Becomes first { frame.handTo flow (.start flow.name initiator userId) with
        replaced := frame.replaced ++ [closed] }
  /-- It is interrupted. -/
  | paused {frame : Frame} (h : Becomes first frame) : Becomes first (Turn.paused frame)
  /-- It goes on after an interruption. -/
  | resumed {frame : Frame} (h : Becomes first frame) (userId : String) :
      Becomes first (Turn.resumed userId frame)

/-- The frame has just been started. -/
def IsNew (frame : Frame) : Prop :=
  ∃ flow scope initiator userId, frame = .start flow scope (.start flow.name initiator userId)

namespace Becomes

variable {first middle last : Frame}

theorem trans (h : first.Becomes middle) (h' : middle.Becomes last) : first.Becomes last := by
  induction h' with
  | same => exact h
  | edited _ hscope htransaction hreplaced ih => exact .edited ih hscope htransaction hreplaced
  | logged _ hlog ih => exact .logged ih hlog
  | handed _ flow initiator userId hclosed ih => exact .handed ih flow initiator userId hclosed
  | paused _ ih => exact .paused ih
  | resumed _ userId ih => exact .resumed ih userId

/-- A frame never leaves its scope. -/
theorem scope (h : first.Becomes last) : last.scope = first.scope := by
  induction h with
  | same => rfl
  | edited _ hscope _ _ ih => exact hscope.trans ih
  | logged _ _ ih => exact ih
  | handed _ _ _ _ _ ih => exact ih
  | paused _ ih => exact ih
  | resumed _ _ ih => exact ih

end Becomes

theorem Alike.becomes {before after : Frame} (h : before.Alike after) : before.Becomes after :=
  .edited .same h.scope h.transaction h.replaced

end Frame

/-! ## Steps -/

/-- The frame of the outcome goes back to the given one, and a frame that comes on top of it is new
and in the same scope. -/
structure Outcome.Descends (first : Frame) (outcome : Outcome) : Prop where
  frame : first.Becomes outcome.scene.frame
  entered : ∀ frame, outcome.next = .ok (.enter frame) → frame.IsNew ∧ frame.scope = first.scope

namespace Scene

variable {first : Frame} {scene : Scene}

theorem failure_descends (h : first.Becomes scene.frame) (error : EngineError) :
    (scene.failure error).Descends first :=
  ⟨h, fun _ hnext => nomatch hnext⟩

theorem outcome_descends (h : first.Becomes scene.frame) {next : Next}
    (hnext : ∀ frame, next ≠ .enter frame) : (scene.outcome next).Descends first :=
  ⟨h, fun frame heq => absurd (Except.ok.inj heq) (hnext frame)⟩

theorem proceed_descends (h : first.Becomes scene.frame) :
    (scene.outcome .proceed).Descends first :=
  outcome_descends h fun _ => nofun

/-- If the transaction does not take the record, the step ends there. -/
theorem logged_descends (h : first.Becomes scene.frame) {record : StepRecord}
    {next : Scene → Outcome}
    (hnext : ∀ after : Scene, first.Becomes after.frame → (next after).Descends first) :
    (scene.logged record next).Descends first := by
  unfold logged
  split
  · exact failure_descends h _
  · rename_i transaction hlog
    exact hnext _ (.logged h hlog)

theorem finished_descends (h : first.Becomes scene.frame) {kind : StepKind} {name : String}
    {next : Scene → Outcome}
    (hnext : ∀ after : Scene, first.Becomes after.frame → (next after).Descends first) :
    (scene.finished kind name next).Descends first := by
  unfold finished
  exact logged_descends (by exact .edited h rfl rfl rfl) hnext

theorem becomes_storeIn (h : first.Becomes scene.frame) (name : Option String) (value : Json) :
    first.Becomes (scene.storeIn name value).frame := by
  rwa [frame_storeIn]

end Scene

namespace Stage

variable {stage : Stage} {first : Frame} {scene : Scene} {id : String}

open Scene

theorem say_descends (h : first.Becomes scene.frame) (message : Wording) :
    (stage.say id message scene).Descends first := by
  unfold say
  exact finished_descends (by exact .edited h rfl rfl rfl) fun _ => proceed_descends

theorem set_descends (h : first.Becomes scene.frame) (target : String) (value : Json) :
    (stage.set id target value scene).Descends first := by
  unfold set
  exact finished_descends (by exact h) fun _ => proceed_descends

theorem ask_descends (h : first.Becomes scene.frame) (message : Wording)
    (target : Option String) : (stage.ask id message target scene).Descends first := by
  unfold ask
  split
  · exact finished_descends (by exact .edited h rfl rfl rfl) fun _ => proceed_descends
  · unfold prompt
    cases target with
    | some target => exact outcome_descends (by exact .edited h rfl rfl rfl) fun _ => nofun
    | none =>
        exact finished_descends (by exact .edited h rfl rfl rfl) fun _ hafter =>
          outcome_descends (by exact hafter) fun _ => nofun

theorem takeBranch_descends (h : first.Becomes scene.frame) (kind : StepKind)
    (branch : Option Step) (missing : String) :
    (takeBranch kind id branch missing scene).Descends first := by
  unfold takeBranch
  cases branch with
  | some step =>
      exact finished_descends h fun _ hafter => proceed_descends (.edited hafter rfl rfl rfl)
  | none => exact failure_descends h _

theorem callFailed_descends (h : first.Becomes scene.frame) (call : ToolCall)
    (onFail : Option Step) (failure : ToolFailure) :
    (stage.callFailed id call onFail failure scene).Descends first := by
  unfold callFailed
  simp only
  split
  · exact logged_descends h fun _ hafter => proceed_descends (by exact .edited hafter rfl rfl rfl)
  · refine logged_descends h fun after hafter => ?_
    have hstored := becomes_storeIn hafter call.target (.str ("Error: " ++ failure.message))
    cases onFail with
    | some handler => exact proceed_descends (by exact .edited hstored rfl rfl rfl)
    | none => exact outcome_descends (by exact .edited hstored rfl rfl rfl) fun _ => nofun

theorem callTool_descends (h : first.Becomes scene.frame) (call : ToolCall)
    (onFail : Option Step) : (stage.callTool id call onFail scene).Descends first := by
  unfold callTool
  split
  · exact callFailed_descends h call onFail _
  · split
    · rename_i journal result hattempt
      have hstored : first.Becomes
          (Scene.storeIn { scene with journal := journal } call.target result).frame :=
        becomes_storeIn (by exact h) call.target result
      exact logged_descends (by exact .edited hstored rfl rfl rfl) fun _ => proceed_descends
    · exact callFailed_descends (by exact h) call onFail _

theorem callFlow_descends (h : first.Becomes scene.frame) (key : String) (callType : CallType) :
    (stage.callFlow id key callType scene).Descends first := by
  unfold callFlow
  split
  · unfold unknownFlow
    simp only
    split
    · exact outcome_descends (by exact h) fun _ => nofun
    · exact finished_descends h fun _ hafter => proceed_descends (by exact hafter)
  · rename_i flow hflow
    unfold call
    simp only
    split
    · exact failure_descends h _
    · refine finished_descends h fun after hafter => ⟨hafter, fun frame hnext => ?_⟩
      cases hnext
      exact ⟨⟨_, _, _, _, rfl⟩, hafter.scope⟩
  · rename_i flow hflow
    refine finished_descends h fun after hafter => ?_
    obtain ⟨closed, hclosed, -⟩ := after.frame.transaction.ifOpen_fail replacedReason
    simp only [hclosed]
    exact proceed_descends (.handed hafter flow _ stage.userId hclosed)
  · exact outcome_descends h fun _ => nofun

end Stage

/-- What a step makes of its frame. -/
theorem Turn.perform_descends (stage : Stage) (step : Step) (scene : Scene) :
    (perform stage step scene).Descends scene.frame := by
  cases step with
  | say id message => exact Stage.say_descends .same message
  | ask id message target => exact Stage.ask_descends .same message target
  | set id target value => exact Stage.set_descends .same target value
  | switch id subject branches =>
      exact Stage.takeBranch_descends .same .switch _ _
  | choose id branches =>
      exact Stage.takeBranch_descends .same .choose _ _
  | callTool id call onFail => exact Stage.callTool_descends .same call onFail
  | callFlow id key callType => exact Stage.callFlow_descends .same key callType

/-! ## Sessions -/

namespace Session

/-- The number is that of the scope of a frame before, or has been given to a new scope since. -/
def Grants (before after : Session) (id : Nat) : Prop :=
  (∃ frame ∈ before.levels.frames, frame.scope = id) ∨
    before.scopes.nextId ≤ id ∧ id < after.scopes.nextId

/-- One session leads to another: the numbers of scopes go on, and every frame goes back to one that
was there before, or to one that was started in between. -/
structure LeadsTo (before after : Session) : Prop where
  next : before.scopes.nextId ≤ after.scopes.nextId
  frames : ∀ frame ∈ after.levels.frames, ∃ origin : Frame, origin.Becomes frame ∧
    (origin ∈ before.levels.frames ∨ origin.IsNew ∧ before.Grants after origin.scope)

namespace LeadsTo

variable {before middle after : Session}

/-- Frames may be left out. -/
theorem of_subset (hframes : after.levels.frames ⊆ before.levels.frames)
    (hnext : after.scopes.nextId = before.scopes.nextId) : before.LeadsTo after :=
  ⟨Nat.le_of_eq hnext.symm, fun frame hframe => ⟨frame, .same, .inl (hframes hframe)⟩⟩

theorem refl (session : Session) : session.LeadsTo session :=
  of_subset (List.Subset.refl _) rfl

/-- What was granted on the way is granted in the end. -/
theorem grants (h : before.LeadsTo middle) (h' : middle.LeadsTo after) {id : Nat}
    (hgrants : before.Grants middle id ∨ middle.Grants after id) : before.Grants after id := by
  have hearlier : ∀ id, before.Grants middle id → before.Grants after id := by
    rintro id (hthere | ⟨hlower, hupper⟩)
    · exact .inl hthere
    · exact .inr ⟨hlower, Nat.lt_of_lt_of_le hupper h'.next⟩
  rcases hgrants with hmiddle | ⟨frame, hframe, rfl⟩ | ⟨hlower, hupper⟩
  · exact hearlier id hmiddle
  · obtain ⟨origin, hbecomes, horigin⟩ := h.frames frame hframe
    rw [hbecomes.scope]
    rcases horigin with hthere | ⟨-, hgranted⟩
    · exact .inl ⟨origin, hthere, rfl⟩
    · exact hearlier _ hgranted
  · exact .inr ⟨Nat.le_trans h.next hlower, hupper⟩

theorem trans (h : before.LeadsTo middle) (h' : middle.LeadsTo after) : before.LeadsTo after := by
  refine ⟨Nat.le_trans h.next h'.next, fun frame hframe => ?_⟩
  obtain ⟨between, hlater, hthere | ⟨hnew, hgranted⟩⟩ := h'.frames frame hframe
  · obtain ⟨origin, hearlier, horigin⟩ := h.frames between hthere
    refine ⟨origin, hearlier.trans hlater, horigin.imp_right fun hstarted => ?_⟩
    exact ⟨hstarted.1, h.grants h' (.inl hstarted.2)⟩
  · exact ⟨between, hlater, .inr ⟨hnew, h.grants h' (.inr hgranted)⟩⟩

/-- The frame that runs may change. -/
theorem of_modifyTop {change : Frame → Frame}
    (hchange : ∀ frame : Frame, frame.Becomes (change frame))
    (hlevels : after.levels = before.levels.modifyTop change)
    (hnext : after.scopes.nextId = before.scopes.nextId) : before.LeadsTo after := by
  refine ⟨Nat.le_of_eq hnext.symm, fun frame hframe => ?_⟩
  rw [hlevels] at hframe
  rcases hbefore : before.levels with ⟨current, suspended⟩
  rw [hbefore] at hframe
  cases current with
  | nil => exact ⟨frame, .same, .inl hframe⟩
  | cons top callers =>
      rcases List.mem_cons.1 hframe with rfl | hother
      · exact ⟨top, hchange top, .inl List.mem_cons_self⟩
      · exact ⟨frame, .same, .inl (List.mem_cons_of_mem top hother)⟩

end LeadsTo

theorem Touched.leadsTo {before after : Session} (h : before.Touched after) :
    before.LeadsTo after := by
  obtain ⟨change, hchange, hlevels⟩ := h.levels
  exact .of_modifyTop (fun frame => (hchange frame).becomes) hlevels (by rw [h.scopes])

end Session

namespace Turn

variable {engine : Engine} {turn : Turn}

/-! ## The beginning of a turn -/

theorem activate_leadsTo (turn : Turn) (flow : Definition) (initiator : String) :
    turn.session.LeadsTo (turn.activate flow initiator).session := by
  refine ⟨Nat.le_succ _, fun frame hframe => ?_⟩
  rcases List.mem_cons.1 hframe with rfl | hold
  · exact ⟨_, .same, .inr ⟨⟨_, _, _, _, rfl⟩, .inr ⟨Nat.le_refl _, Nat.lt_succ_self _⟩⟩⟩
  · exact ⟨frame, .same, .inl hold⟩

theorem switchTo_leadsTo (turn : Turn) (flow : Definition) :
    turn.session.LeadsTo (turn.switchTo flow).session := by
  have hpaused : turn.session.LeadsTo (turn.modifyTop paused).session :=
    .of_modifyTop (fun _ => .paused .same) rfl rfl
  have hinterrupted : (turn.modifyTop paused).session.LeadsTo ((turn.modifyTop paused).withLevels
      (turn.modifyTop paused).session.levels.interrupt).session :=
    .of_subset (List.Subset.refl _) rfl
  exact hpaused.trans (hinterrupted.trans (activate_leadsTo _ flow "interruption"))

theorem carryOut_leadsTo (engine : Engine) (turn : Turn) (frame : Frame) (reaction : Reaction) :
    turn.session.LeadsTo (turn.carryOut engine frame reaction).turn.session := by
  cases reaction with
  | cancel =>
      simp only [carryOut, cancel]
      split
      · exact .refl _
      · exact .of_subset (List.subset_append_right _ _) rfl
  | help | status | stay | goOn => exact .of_subset (List.Subset.refl _) rfl
  | confirm flow => exact (touched_requestConfirmation turn flow).leadsTo
  | interrupt flow => exact turn.switchTo_leadsTo flow

theorem welcome_leadsTo (engine : Engine) (turn : Turn) (input : String) :
    turn.session.LeadsTo (turn.welcome engine input).turn.session := by
  unfold welcome
  simp only
  split
  · exact .refl _
  · exact .refl _
  · exact activate_leadsTo _ _ "user"

/-! ## Rounds -/

theorem settle_leadsTo {frame : Frame} {callers : Level} {suspended : List Level}
    (hlevels : turn.session.levels = ⟨frame :: callers, suspended⟩) {outcome : Outcome}
    (houtcome : outcome.Descends frame) :
    turn.session.LeadsTo (turn.settle outcome).1.session := by
  obtain ⟨scene, next⟩ := outcome
  by_cases hreboot : ∃ flow, next = .ok (.restart flow)
  · obtain ⟨flow, rfl⟩ := hreboot
    have hreset : turn.session.LeadsTo ((turn.adopt scene).withLevels .empty).session :=
      .of_subset (List.nil_subset _) rfl
    cases flow with
    | none => exact hreset
    | some flow => exact hreset.trans (activate_leadsTo _ flow "reboot")
  · have hnext : ∀ flow, next ≠ .ok (.restart flow) := fun flow heq => hreboot ⟨flow, heq⟩
    refine ⟨by rw [scopes_settle turn hnext]; exact Nat.le_refl _, fun f hf => ?_⟩
    rw [levels_settle hlevels ⟨scene, next⟩ hnext] at hf
    have htop : frame ∈ turn.session.levels.frames := by
      rw [hlevels]
      exact List.mem_cons_self
    rcases List.mem_append.1 hf with hlevel | hbelow
    · rcases mem_levelAfter hlevel with hcaller | rfl | hentered
      · refine ⟨f, .same, .inl ?_⟩
        rw [hlevels]
        exact List.mem_append_left _ (List.mem_cons_of_mem frame hcaller)
      · exact ⟨frame, houtcome.frame, .inl htop⟩
      · obtain ⟨hnew, hscope⟩ := houtcome.entered f hentered
        exact ⟨f, .same, .inr ⟨hnew, .inl ⟨frame, htop, hscope.symm⟩⟩⟩
    · refine ⟨f, .same, .inl ?_⟩
      rw [hlevels]
      exact List.mem_append_right _ hbelow

theorem resume_leadsTo (engine : Engine) (turn : Turn) :
    turn.session.LeadsTo (turn.resume engine).1.session := by
  unfold resume Levels.leave
  cases hsuspended : turn.session.levels.suspended with
  | nil => exact .refl _
  | cons level below =>
      have hleft : turn.session.LeadsTo (turn.withLevels ⟨level, below⟩).session := by
        refine .of_subset (fun frame hframe => List.mem_append_right _ ?_) rfl
        rwa [hsuspended]
      simp only
      split
      · exact hleft
      · exact hleft.trans (.of_modifyTop (fun _ => .resumed .same _) rfl rfl)

theorem step_leadsTo (engine : Engine) (turn : Turn) :
    turn.session.LeadsTo (turn.step engine).1.session := by
  rw [step_eq_carried]
  cases htask : turn.task engine with
  | rest | stop => exact .refl _
  | resume => exact turn.resume_leadsTo engine
  | complete frame =>
      have hpopped : turn.session.LeadsTo
          (turn.charged.withLevels turn.session.levels.pop.1).session :=
        .of_subset (List.append_subset.2
          ⟨List.subset_append_of_subset_left _ (List.tail_sublist _).subset,
            List.subset_append_right _ _⟩) rfl
      simp only [carried, finishFrame]
      split <;> exact hpopped
  | dispatch frame step =>
      obtain ⟨htop, -⟩ := task_eq_dispatch.1 htask
      obtain ⟨callers, suspended, hlevels⟩ := Levels.top?_eq_some.1 htop
      have hcharged : turn.charged.session.levels = ⟨frame :: callers, suspended⟩ := hlevels
      simp only [carried, runStep]
      split
      · exact .refl _
      · exact settle_leadsTo hcharged (perform_descends _ step (turn.charged.scene frame _))

theorem abort_leadsTo (engine : Engine) (turn : Turn) (error : EngineError) :
    turn.session.LeadsTo (turn.abort engine error).session :=
  .of_subset (List.subset_append_right _ _) rfl

theorem round_leadsTo {next : Turn} (hround : turn.round engine = .onward next) :
    turn.session.LeadsTo next.session := by
  have hstep := step_leadsTo engine turn
  rcases round_onward hround with hrunning | ⟨failed, error, hfailed, -, rfl⟩
  · rwa [hrunning] at hstep
  · rw [hfailed] at hstep
    exact hstep.trans (abort_leadsTo engine failed error)

theorem ended_leadsTo {final : Turn} (hround : turn.round engine = .ended final) :
    turn.session.LeadsTo final.session := by
  have hstep := step_leadsTo engine turn
  rcases round_ended hround with hblocked | ⟨idle, hdone, rfl⟩ | ⟨failed, error, hfailed, -, rfl⟩
  · rwa [hblocked] at hstep
  · rw [hdone] at hstep
    obtain ⟨hlevels, hscopes⟩ := levels_concluded engine idle
    refine hstep.trans (.of_subset ?_ (by rw [hscopes]))
    rw [hlevels]
    exact List.Subset.refl _
  · rw [hfailed] at hstep
    exact hstep.trans (abort_leadsTo engine failed error)

/-- The session at the beginning of a turn leads to that of every round and to that at the end. -/
theorem run_leadsTo (engine : Engine) (turn : Turn) :
    (∀ round ∈ turn.trail engine, turn.session.LeadsTo round.session) ∧
      turn.session.LeadsTo (turn.run engine).1.session := by
  obtain ⟨hrounds, last, -, hlast, hended⟩ := (runs_drive engine turn).invariant
    (fun _ _ (h : turn.session.LeadsTo _) hround => h.trans (round_leadsTo hround)) (.refl _)
  refine ⟨hrounds, (hlast.trans (ended_leadsTo hended)).trans ?_⟩
  obtain ⟨hlevels, hscopes⟩ := session_run engine turn
  refine .of_subset ?_ (by rw [hscopes]; rfl)
  rw [hlevels]
  exact List.Subset.refl _

end Turn

namespace Engine

variable {engine : Engine} {session : Session} {exchange : Exchange}

theorem opening_leadsTo (engine : Engine) (journal : Journal) (session : Session)
    (entry : Entry) :
    session.LeadsTo (engine.opening journal session entry).turn.session := by
  have hheard := (Session.touched_hear session entry).leadsTo
  unfold opening
  simp only
  split
  · rename_i frame htop
    rw [Turn.handleInput_eq]
    have hreacted := (Turn.react_touched engine
      (.start (session.hear entry) journal (some entry.content)) frame entry.content).1.leadsTo
    exact hheard.trans (hreacted.trans (Turn.carryOut_leadsTo engine _ frame _))
  · exact hheard.trans (Turn.welcome_leadsTo engine
      (.start (session.hear entry) journal (some entry.content)) entry.content)

/-- A session leads to the one after an exchange. -/
theorem next_leadsTo (engine : Engine) (session : Session) (exchange : Exchange) :
    session.LeadsTo (engine.next session exchange) := by
  rcases next_cases engine session exchange with htouched | ⟨turn, -, hopening, hnext, -⟩
  · exact htouched.leadsTo
  · have hopened := opening_leadsTo engine exchange.journal session exchange.entry
    rw [hopening] at hopened
    rw [hnext]
    exact hopened.trans (turn.run_leadsTo engine).2

/-- A session leads to that of every round of an exchange. -/
theorem trail_leadsTo {round : Turn} (hround : round ∈ engine.trail session exchange) :
    session.LeadsTo round.session := by
  obtain ⟨turn, -, hopening, htrail⟩ := running_of_trail hround
  have hopened := opening_leadsTo engine exchange.journal session exchange.entry
  rw [hopening] at hopened
  rw [htrail] at hround
  exact hopened.trans ((turn.run_leadsTo engine).1 round hround)

/-- A session leads to the one after some exchanges. -/
theorem after_leadsTo (engine : Engine) (session : Session) (exchanges : List Exchange) :
    session.LeadsTo (engine.after session exchanges) := by
  induction exchanges generalizing session with
  | nil => exact .refl _
  | cons exchange later ih => exact (next_leadsTo engine session exchange).trans (ih _)

end Engine

end Parley
