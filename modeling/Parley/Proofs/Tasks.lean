import Parley.Proofs.Runs

/-!
# What a round is for

Before a round changes anything, the levels, the budget and the steps of the frame
that runs settle what the round is for.  This holds in every session, in order or
not, so what is proved about rounds by their tasks needs no invariant.
-/

set_option autoImplicit false

namespace Parley

namespace Turn

/-- What a round of a turn is for. -/
inductive Task where
  /-- Nothing: no frames are left. -/
  | rest
  /-- The innermost level, which has no frames, is left. -/
  | resume
  /-- The turn is stopped, because all allowed steps have been taken. -/
  | stop
  /-- The frame that runs has no steps left and is completed. -/
  | complete (frame : Frame)
  /-- The next step of the frame that runs is handed to its handler. -/
  | dispatch (frame : Frame) (step : Step)

namespace Task

/-- The task is charged to the budget and carried out. -/
def isWork : Task → Bool
  | complete _ | dispatch _ _ => true
  | rest | resume | stop => false

/-- The step that is dispatched. -/
def step? : Task → Option Step
  | dispatch _ step => some step
  | _ => none

theorem step?_eq_some {task : Task} {step : Step} :
    task.step? = some step ↔ ∃ frame, task = .dispatch frame step := by
  cases task with
  | dispatch frame next => simp [step?]
  | _ => simp [step?]

end Task

/-- The task of the round that begins with this turn. -/
def task (engine : Engine) (turn : Turn) : Task :=
  match turn.session.levels.top? with
  | none => if turn.session.levels.suspended.isEmpty then .rest else .resume
  | some frame =>
    if engine.settings.maxSteps < turn.taken + 1 then .stop
    else
      match frame.steps with
      | [] => .complete frame
      | step :: _ => .dispatch frame step

/-- The turn after a task, and how it goes on. -/
def carried (engine : Engine) (turn : Turn) : Task → Turn × Except EngineError Progress
  | .rest => (turn, .ok .done)
  | .resume => turn.resume engine
  | .stop => (turn.charged, .error (.stepBudgetExceeded engine.settings.maxSteps))
  | .complete frame => turn.charged.finishFrame frame
  | .dispatch frame step => runStep engine turn.charged frame step

variable {engine : Engine} {turn : Turn}

/-- A step of a turn is its task. -/
theorem step_eq_carried (engine : Engine) (turn : Turn) :
    turn.step engine = turn.carried engine (turn.task engine) := by
  unfold step task
  cases turn.session.levels.top? with
  | none =>
      simp only
      split
      · rfl
      · rfl
  | some frame =>
      by_cases hlimit : engine.settings.maxSteps < turn.taken + 1
      · simp only [hlimit, if_true]
        rfl
      · simp only [hlimit, if_false]
        cases frame.steps with
        | nil => rfl
        | cons step rest => rfl

/-- A step is dispatched if the frame that runs has it next and the budget allows it. -/
theorem task_eq_dispatch {frame : Frame} {step : Step} :
    turn.task engine = .dispatch frame step ↔
      turn.session.levels.top? = some frame ∧ turn.taken < engine.settings.maxSteps ∧
        ∃ rest, frame.steps = step :: rest := by
  unfold task
  cases turn.session.levels.top? with
  | none =>
      simp only
      split <;> simp
  | some top =>
      by_cases hlimit : engine.settings.maxSteps < turn.taken + 1
      · have hover : ¬turn.taken < engine.settings.maxSteps := by omega
        simp [hlimit, hover]
      · have hwithin : turn.taken < engine.settings.maxSteps := by omega
        cases hsteps : top.steps with
        | nil =>
            simp only [hlimit, if_false, hsteps, reduceCtorEq, false_iff]
            rintro ⟨htop, -, rest, hrest⟩
            cases htop
            cases hsteps.symm.trans hrest
        | cons next later =>
            simp only [hlimit, if_false, hsteps, Task.dispatch.injEq]
            constructor
            · rintro ⟨rfl, rfl⟩
              exact ⟨rfl, hwithin, later, hsteps⟩
            · rintro ⟨htop, -, rest, hrest⟩
              cases htop
              cases hsteps.symm.trans hrest
              exact ⟨rfl, rfl⟩

/-- Work is done within the budget. -/
theorem taken_lt_of_isWork (h : (turn.task engine).isWork = true) :
    turn.taken < engine.settings.maxSteps := by
  unfold task at h
  split at h
  · split at h <;> cases h
  · split at h
    · cases h
    · omega

end Turn

end Parley
