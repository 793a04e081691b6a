import Parley.Proofs.Conversations

/-!
# Interruptions

A flow that is interrupted keeps its frames below those of the interrupting level,
in scopes that no frame above refers to.  So nothing that happens above changes
them, until the last level above is left; then the frame that was interrupted goes
on with the question that is its next step, and the turn waits for the answer.
-/

set_option autoImplicit false

namespace Parley

namespace Session

/-- Some levels stand below the innermost one, and the variables of their frames are those of the
given scopes. -/
structure Parked (base : Levels) (scopes : Scopes) (session : Session) : Prop where
  levels : ∃ current above, session.levels = ⟨current, above ++ base.inward⟩
  scopes : ∀ frame ∈ base.frames, session.scopes.get? frame.scope = scopes.get? frame.scope

/-- The level that was interrupted is the innermost one again, and its frame goes on. -/
structure Woken (top : Frame) (callers : Level) (suspended : List Level) (scopes : Scopes)
    (session : Session) : Prop where
  levels : session.levels = ⟨Turn.resumed session.userId top :: callers, suspended⟩
  scopes : ∀ frame ∈ (Levels.mk (top :: callers) suspended).frames,
    session.scopes.get? frame.scope = scopes.get? frame.scope

namespace Parked

variable {base : Levels} {scopes : Scopes} {before after : Session}

/-- There are more levels than those that are parked. -/
theorem count_lt (h : before.Parked base scopes) : base.count < before.levels.count := by
  obtain ⟨current, above, hlevels⟩ := h.levels
  simp only [hlevels, Levels.count, Levels.inward, List.length_append, List.length_cons]
  omega

theorem mem_frames (h : before.Parked base scopes) {frame : Frame} (hframe : frame ∈ base.frames) :
    frame ∈ before.levels.frames := by
  obtain ⟨current, above, hlevels⟩ := h.levels
  obtain ⟨level, hlevel, hmem⟩ := List.mem_flatten.1 hframe
  rw [hlevels]
  exact Levels.mem_frames.2 (.inr ⟨level, List.mem_append_right _ hlevel, hmem⟩)

/-- No frame of the innermost level shares a scope with one that is parked. -/
theorem scope_ne (h : before.Parked base scopes) (horder : before.InOrder) {f g : Frame}
    (hf : f ∈ before.levels.current) (hg : g ∈ base.frames) : g.scope ≠ f.scope := by
  obtain ⟨current, above, hlevels⟩ := h.levels
  obtain ⟨level, hlevel, hmem⟩ := List.mem_flatten.1 hg
  have hapart := horder.wellScoped.apart
  rw [hlevels] at hapart hf
  have hbelow := (List.pairwise_cons.1 hapart).1 level (List.mem_append_right _ hlevel)
  exact (hbelow f hf g hmem).symm

/-- The number of a scope that is parked is below the next number. -/
theorem scope_lt (h : before.Parked base scopes) (horder : before.InOrder) {frame : Frame}
    (hframe : frame ∈ base.frames) : frame.scope < before.scopes.nextId :=
  horder.wellScoped.fresh _ (horder.wellScoped.present frame (h.mem_frames hframe))

/-- The innermost level may change, and every scope that is not parked. -/
theorem withCurrent (h : before.Parked base scopes) (current : Level)
    (hlevels : after.levels = ⟨current, before.levels.suspended⟩)
    (hscopes : ∀ frame ∈ base.frames,
      after.scopes.get? frame.scope = before.scopes.get? frame.scope) :
    after.Parked base scopes := by
  obtain ⟨former, above, hbefore⟩ := h.levels
  refine ⟨⟨current, above, by rw [hlevels, hbefore]⟩, ?_⟩
  intro frame hframe
  rw [hscopes frame hframe]
  exact h.scopes frame hframe

theorem touched (h : before.Parked base scopes) (htouched : before.Touched after) :
    after.Parked base scopes := by
  obtain ⟨change, -, hlevels⟩ := htouched.levels
  apply h.withCurrent (before.levels.current.modifyHead change)
  · rw [hlevels, Levels.modifyTop_eq]
  · intro frame hframe
    rw [htouched.scopes]

end Parked

end Session

namespace Turn

variable {engine : Engine} {turn : Turn}

/-- The next step of the turn is a reboot. -/
def reboots (turn : Turn) : Bool :=
  match turn.session.levels.top?.map Frame.steps with
  | some (.callFlow _ _ .reboot :: _) => true
  | _ => false

/-- The step of the turn fails because the budget is used up. -/
def exhausts (engine : Engine) (turn : Turn) : Bool :=
  match (turn.step engine).2 with
  | .error e => e.isBudget
  | .ok _ => false

/-- Neither does the turn reboot nor is its budget used up. -/
def isCalm (engine : Engine) (turn : Turn) : Bool :=
  !turn.reboots && !turn.exhausts engine

theorem not_reboots_of_isCalm (h : turn.isCalm engine = true) : turn.reboots = false := by
  simpa using (Bool.and_eq_true_iff.1 h).1

theorem not_exhausts_of_isCalm (h : turn.isCalm engine = true) : turn.exhausts engine = false := by
  simpa using (Bool.and_eq_true_iff.1 h).2

theorem reboots_of_steps {frame : Frame} {id key : String} {rest : List Step}
    (htop : turn.session.levels.top? = some frame)
    (hsteps : frame.steps = .callFlow id key .reboot :: rest) : turn.reboots = true := by
  simp [reboots, htop, hsteps]

/-- A calm turn in which a frame runs has steps left in its budget. -/
theorem budget_of_isCalm {frame : Frame} {callers : Level} {suspended : List Level}
    (hlevels : turn.session.levels = ⟨frame :: callers, suspended⟩)
    (hcalm : turn.isCalm engine = true) : turn.taken < engine.settings.maxSteps := by
  have hexhausts := not_exhausts_of_isCalm hcalm
  by_cases hlimit : engine.settings.maxSteps < turn.taken + 1
  · simp [exhausts, step, hlevels, Levels.top?, hlimit, EngineError.isBudget] at hexhausts
  · omega

/-- Only a turn without frames can find that all is done. -/
theorem settle_not_done (turn : Turn) (outcome : Outcome) :
    (turn.settle outcome).2 ≠ .ok .done := by
  obtain ⟨scene, next⟩ := outcome
  match next with
  | .error e => simp [settle]
  | .ok .proceed => simp [settle, advance]
  | .ok .await => simp [settle, advance]
  | .ok .leave => simp [settle, advance]
  | .ok (.enter entered) => simp [settle, advance]
  | .ok (.restart none) => simp [settle, advance]
  | .ok (.restart (some flow)) => simp [settle, advance]

/-- Only a question makes a turn wait. -/
theorem settle_blocked {outcome : Outcome} (h : (turn.settle outcome).2 = .ok .blocked) :
    outcome.next = .ok .await := by
  obtain ⟨scene, next⟩ := outcome
  match next with
  | .ok .await => rfl
  | .error e => cases h
  | .ok .proceed | .ok .leave | .ok (.enter top) => cases h
  | .ok (.restart none) | .ok (.restart (some flow)) => cases h

theorem levels_of_done {idle : Turn} (horder : turn.session.InOrder)
    (h : turn.step engine = (idle, .ok .done)) : idle.session.levels = .empty := by
  have hmove := step_move engine horder
  rw [h] at hmove
  generalize hresult : ((idle, .ok .done) : Turn × Except EngineError Progress) = result at hmove
  cases hmove with
  | idled hlevels =>
      cases hresult
      exact hlevels
  | resumed frame callers below hlevels => cases hresult
  | exhausted frame callers suspended hlevels hlimit => cases hresult
  | finished frame callers suspended hlevels hlimit hsteps => cases hresult
  | performed frame callers suspended step rest vars outcome hlevels hlimit hsteps hvars heffect =>
      exact absurd (congrArg Prod.snd hresult).symm (settle_not_done _ _)

/-! ## While a level is parked -/

section Parked

variable {top : Frame} {callers : Level} {suspended : List Level} {scopes : Scopes}

/-- A step leaves a parked level alone, or wakes it. -/
theorem step_parked (horder : turn.session.InOrder)
    (hparked : turn.session.Parked ⟨top :: callers, suspended⟩ scopes)
    (hcalm : turn.isCalm engine = true) :
    (turn.step engine).2 ≠ .ok .done ∧
      ((turn.step engine).1.session.Parked ⟨top :: callers, suspended⟩ scopes ∨
        (turn.step engine).2 = .ok .running ∧
          (turn.step engine).1.session.Woken top callers suspended scopes) := by
  have hexhausts := not_exhausts_of_isCalm hcalm
  have hreboots := not_reboots_of_isCalm hcalm
  unfold exhausts at hexhausts
  have hmove := step_move engine horder
  generalize turn.step engine = result at hmove hexhausts
  cases hmove with
  | idled hlevels =>
      obtain ⟨current, above, hbefore⟩ := hparked.levels
      rw [hlevels] at hbefore
      simp [Levels.empty, Levels.inward] at hbefore
  | resumed frame others below hlevels =>
      refine ⟨by simp, ?_⟩
      obtain ⟨current, above, hbefore⟩ := hparked.levels
      rw [hlevels] at hbefore
      -- the level that goes on is the parked one if there is none between
      cases above with
      | nil =>
          cases hbefore
          exact .inr ⟨rfl, rfl, hparked.scopes⟩
      | cons level above =>
          cases hbefore
          exact .inl ⟨⟨_, above, rfl⟩, hparked.scopes⟩
  | exhausted frame others below hlevels hlimit => cases hexhausts
  | finished frame others below hlevels hlimit hsteps =>
      refine ⟨by simp, .inl (hparked.withCurrent others ?_ fun _ _ => rfl)⟩
      rw [hlevels]
      rfl
  | performed frame others below step rest vars outcome hlevels hlimit hsteps hvars heffect =>
      have hnext : ∀ flow, outcome.next ≠ .ok (.restart flow) := by
        intro flow hflow
        obtain ⟨id, key, rfl⟩ := heffect.restart hflow
        rw [reboots_of_steps (by rw [hlevels]; rfl) hsteps] at hreboots
        cases hreboots
      have hcharged : turn.charged.session.levels = ⟨frame :: others, below⟩ := hlevels
      have hlevel := levels_settle hcharged outcome hnext
      have hscope : outcome.scene.frame.scope = frame.scope := heffect.scope
      refine ⟨settle_not_done _ _, .inl (hparked.withCurrent _ (hlevel.trans (by rw [hlevels])) ?_)⟩
      -- the step writes to the scope of its own level, which is no parked one
      intro g hg
      have hne := hparked.scope_ne horder (f := frame) (by simp [hlevels]) hg
      rw [scopes_settle _ hnext, Scopes.get?_put_of_ne _ (hscope ▸ hne)]
      rfl

/-- The end of a level above leaves a parked level alone. -/
theorem abort_parked {base : Levels} (hparked : turn.session.Parked base scopes)
    (error : EngineError) : (turn.abort engine error).session.Parked base scopes :=
  hparked.withCurrent [] rfl fun _ _ => rfl

theorem round_parked (horder : turn.session.InOrder)
    (hparked : turn.session.Parked ⟨top :: callers, suspended⟩ scopes)
    (hcalm : turn.isCalm engine = true) {next : Turn} (h : turn.round engine = .onward next) :
    next.session.Parked ⟨top :: callers, suspended⟩ scopes ∨
      next.session.Woken top callers suspended scopes := by
  obtain ⟨-, hstep⟩ := step_parked horder hparked hcalm
  rcases round_onward h with hrunning | ⟨failed, error, hfailed, -, rfl⟩
  · rw [hrunning] at hstep
    exact hstep.imp_right And.right
  · rw [hfailed] at hstep
    rcases hstep with hparked | ⟨hrunning, -⟩
    · exact .inl (abort_parked hparked error)
    · cases hrunning

theorem ended_parked (horder : turn.session.InOrder)
    (hparked : turn.session.Parked ⟨top :: callers, suspended⟩ scopes)
    (hcalm : turn.isCalm engine = true) {final : Turn} (h : turn.round engine = .ended final) :
    final.session.Parked ⟨top :: callers, suspended⟩ scopes := by
  obtain ⟨hdone, hstep⟩ := step_parked horder hparked hcalm
  rcases round_ended h with hblocked | ⟨idle, hidle, -⟩ | ⟨failed, error, hfailed, hbudget, -⟩
  · rw [hblocked] at hstep
    rcases hstep with hparked | ⟨hrunning, -⟩
    · exact hparked
    · cases hrunning
  · rw [hidle] at hdone
    exact absurd rfl hdone
  · have hexhausts := not_exhausts_of_isCalm hcalm
    simp [exhausts, hfailed, hbudget] at hexhausts

end Parked

/-! ## When it goes on -/

section Woken

variable {top : Frame} {callers : Level} {suspended : List Level} {scopes : Scopes}
  {id target : String} {message : Wording} {rest : List Step}

/-- The step asks the question of a frame that was interrupted: the frame waits for the answer
again, and the text of the question is the last message. -/
structure Reasks (engine : Engine) (turn : Turn) (top : Frame) (callers : Level)
    (suspended : List Level) (message : Wording) (target : String) (asking : Frame)
    (text : String) : Prop where
  blocked : (turn.step engine).2 = .ok .blocked
  wording : ∃ vars, turn.session.scopes.get? top.scope = some vars ∧
    text = (turn.stage engine).wordingIn (turn.scene top vars) message
  levels : (turn.step engine).1.session.levels = ⟨asking :: callers, suspended⟩
  steps : asking.steps = top.steps
  scope : asking.scope = top.scope
  pending : asking.pendingVariable = some target
  shown : asking.lastMessage = some text
  said : (turn.step engine).1.session.outbox = turn.session.outbox ++ [text]
  kept : ∀ id, (turn.step engine).1.session.scopes.get? id = turn.session.scopes.get? id

/-- Right after an interruption a question is shown without the hint about commands. -/
theorem question_resumed (stage : Stage) (text : String) : stage.question true text = text := by
  simp [Stage.question]

/-- The frame that goes on asks its question, without an answer that was not meant for it. -/
theorem woken_reasks (horder : turn.session.InOrder)
    (hwoken : turn.session.Woken top callers suspended scopes)
    (hsteps : top.steps = .ask id message (some target) :: rest)
    (hpending : top.pendingVariable = none) (hcalm : turn.isCalm engine = true) :
    ∃ asking text, turn.Reasks engine top callers suspended message target asking text := by
  have hlevels := hwoken.levels
  have hbudget := budget_of_isCalm hlevels hcalm
  obtain ⟨vars, outcome, hvars, hstep, heffect⟩ :=
    step_performed engine horder hlevels hsteps hbudget
  rcases heffect.ask with ⟨after, waiting, input, -, -, hwaiting, -⟩ |
    ⟨after, rfl, -, hscope, hkept, -, hsaid, hasked⟩
  · cases hpending.symm.trans hwaiting
  · obtain ⟨hsteps', hpending', hshown⟩ := hasked target rfl
    refine ⟨after.frame, (turn.stage engine).wordingIn (turn.scene top vars) message, ?_⟩
    constructor
    · rw [hstep]
      rfl
    · exact ⟨vars, hvars, rfl⟩
    · rw [hstep]
      exact levels_adopt hlevels after
    · exact hsteps'
    · exact hscope
    · exact hpending'
    · exact hshown
    · rw [hstep]
      refine congrArg (turn.session.outbox ++ ·) (hsaid.trans ?_)
      exact congrArg ([·]) (question_resumed _ _)
    · intro other
      rw [hstep, scopes_settle _ (by simp), hscope, hkept]
      exact Scopes.get?_put_same hvars other

/-- A calm run that begins while a level is parked ends so too, or the frame that was interrupted
asks its question in the last round. -/
theorem Runs.parked {trail : List Turn} {final : Turn} (hrun : Runs engine turn trail final)
    (hsteps : top.steps = .ask id message (some target) :: rest)
    (hpending : top.pendingVariable = none)
    (horder : turn.session.InOrder)
    (hparked : turn.session.Parked ⟨top :: callers, suspended⟩ scopes)
    (hcalm : ∀ t ∈ trail, t.isCalm engine = true) :
    final.session.Parked ⟨top :: callers, suspended⟩ scopes ∨
      ∃ last asking text, trail.getLast? = some last ∧
        last.session.Woken top callers suspended scopes ∧
        last.Reasks engine top callers suspended message target asking text ∧
        final = (last.step engine).1 := by
  induction hrun with
  | last hround => exact .inl (ended_parked horder hparked (hcalm _ List.mem_cons_self) hround)
  | @more turn next final trail hround hrest ih =>
      have hnext := round_inOrder horder hround
      have hlater := fun t ht => hcalm t (List.mem_cons_of_mem _ ht)
      rcases round_parked horder hparked (hcalm _ List.mem_cons_self) hround with hstill | hwoken
      · rcases ih hnext hstill hlater with hfinal | ⟨last, asking, text, hlast, hends⟩
        · exact .inl hfinal
        · refine .inr ⟨last, asking, text, ?_, hends⟩
          rw [List.getLast?_cons, hlast]
          rfl
      · -- the frame that goes on asks at once, so the run has one more round
        have hfirst : next ∈ trail := hrest.mem_first
        obtain ⟨asking, text, hreasks⟩ :=
          woken_reasks hnext hwoken hsteps hpending (hlater next hfirst)
        obtain ⟨rfl, rfl⟩ := hrest.of_ended (round_of_blocked hreasks.blocked)
        exact .inr ⟨next, asking, text, rfl, hwoken, hreasks, rfl⟩

end Woken

end Turn

end Parley
