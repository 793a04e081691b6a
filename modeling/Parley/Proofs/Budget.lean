import Parley.Proofs.Tasks

/-!
# The budget of a turn

Two measures bound a run.  The rounds that are still possible become fewer with
every round, charged or not, because a round without a charge leaves a level.
The rounds that do work are bounded by the allowed steps alone, because each of
them takes one and none is ever given back.  The steps taken decide nothing but
where the budget ends a run: a run that reaches no limit takes place as well if
fewer steps were taken before it.
-/

set_option autoImplicit false

namespace Parley

namespace Turn

variable {engine : Engine} {turn : Turn}

/-! ## What a round is charged -/

/-- Work is charged with one step, and nothing gives a step back. -/
theorem taken_carried (engine : Engine) (turn : Turn) (task : Task) :
    (task.isWork = true → (turn.carried engine task).1.taken = turn.taken + 1) ∧
      turn.taken ≤ (turn.carried engine task).1.taken := by
  have hwork : (turn.carried engine task).1.taken = turn.taken + 1 →
      (task.isWork = true → (turn.carried engine task).1.taken = turn.taken + 1) ∧
        turn.taken ≤ (turn.carried engine task).1.taken := by
    intro hcharged
    exact ⟨fun _ => hcharged, by omega⟩
  cases task with
  | rest => exact ⟨nofun, Nat.le_refl _⟩
  | resume =>
      refine ⟨nofun, Nat.le_of_eq ?_⟩
      show turn.taken = (turn.resume engine).1.taken
      unfold resume
      split
      · rfl
      · simp only
        split <;> rfl
  | stop => exact hwork rfl
  | complete frame =>
      apply hwork
      show (turn.charged.finishFrame frame).1.taken = turn.taken + 1
      unfold finishFrame
      simp only
      split <;> rfl
  | dispatch frame step =>
      apply hwork
      show (runStep engine turn.charged frame step).1.taken = turn.taken + 1
      unfold runStep
      split
      · rfl
      · exact (settle_remaining turn.charged _).1

/-- The next round begins with a step less if this one did work, and never with more. -/
theorem taken_onward {next : Turn} (h : turn.round engine = .onward next) :
    ((turn.task engine).isWork = true → next.taken = turn.taken + 1) ∧
      turn.taken ≤ next.taken := by
  have hcarried := taken_carried engine turn (turn.task engine)
  rw [← step_eq_carried] at hcarried
  rcases round_onward h with hrunning | ⟨failed, error, hfailed, -, rfl⟩
  · rwa [hrunning] at hcarried
  · -- giving up a level takes no step
    rwa [hfailed] at hcarried

/-! ## Runs -/

namespace Runs

variable {rounds : List Turn} {final : Turn}

/-- A turn runs in one way only. -/
theorem unique (hrun : Runs engine turn rounds final) {others : List Turn} {last : Turn}
    (hother : Runs engine turn others last) : others = rounds ∧ last = final := by
  induction hrun generalizing others last with
  | last hended => exact hother.of_ended hended
  | more honward hrest ih =>
      cases hother with
      | last hended => cases honward.symm.trans hended
      | more hsame hlater =>
          cases honward.symm.trans hsame
          obtain ⟨rfl, rfl⟩ := ih hlater
          exact ⟨rfl, rfl⟩

/-- A run has one round more than are possible before the last one. -/
theorem length_le (hrun : Runs engine turn rounds final) :
    rounds.length ≤ turn.remaining engine + 1 := by
  induction hrun with
  | last hended => simp
  | more honward hrest ih =>
      have hless := round_remaining honward
      rw [List.length_cons]
      omega

/-- The rounds of a run that do work are at most as many as there are steps left. -/
theorem work_le (hrun : Runs engine turn rounds final) :
    rounds.countP (fun round => (round.task engine).isWork) ≤
      engine.settings.maxSteps - turn.taken := by
  induction hrun with
  | @last turn final hended =>
      cases hwork : (turn.task engine).isWork with
      | false => simp [hwork]
      | true =>
          have hwithin := taken_lt_of_isWork hwork
          simp only [List.countP_cons, List.countP_nil, hwork, if_true]
          omega
  | @more turn next final later honward hrest ih =>
      obtain ⟨hcharged, hkept⟩ := taken_onward honward
      cases hwork : (turn.task engine).isWork with
      | false =>
          have hcount : (turn :: later).countP (fun round => (round.task engine).isWork) =
              later.countP fun round => (round.task engine).isWork :=
            List.countP_cons_of_neg (by simp [hwork])
          omega
      | true =>
          have hcount : (turn :: later).countP (fun round => (round.task engine).isWork) =
              later.countP (fun round => (round.task engine).isWork) + 1 :=
            List.countP_cons_of_pos hwork
          have hwithin := taken_lt_of_isWork hwork
          have htaken := hcharged hwork
          omega

end Runs

/-- The runs of a turn are one: through its rounds to its end. -/
theorem runs_iff {others : List Turn} {final : Turn} :
    Runs engine turn others final ↔ others = turn.trail engine ∧ final = turn.drive engine := by
  have hrun := runs_drive engine turn
  constructor
  · intro hother
    exact hrun.unique hother
  · rintro ⟨rfl, rfl⟩
    exact hrun

/-- Every turn runs to its end, and in one way only: within one round for each allowed step, one
for each level and one more, of which no more than the allowed steps complete a frame or dispatch a
step. -/
theorem ends_within_budget (engine : Engine) (turn : Turn) :
    ∃ rounds,
      (∀ others final,
        Runs engine turn others final ↔ others = rounds ∧ final = turn.drive engine) ∧
      rounds.length ≤ engine.settings.maxSteps + turn.session.levels.count + 1 ∧
      rounds.countP (fun round => (round.task engine).isWork) ≤ engine.settings.maxSteps := by
  have hrun := runs_drive engine turn
  refine ⟨turn.trail engine, fun others final => runs_iff, ?_, ?_⟩
  · have hlength := hrun.length_le
    have hremaining : turn.remaining engine + 1 ≤
        engine.settings.maxSteps + turn.session.levels.count + 1 := by
      simp only [remaining, Levels.count]
      omega
    exact Nat.le_trans hlength hremaining
  · have hwork := hrun.work_le
    omega

end Turn

/-! ## Limits -/

/-- The error tells that a limit of the settings was reached. -/
def EngineError.isLimit : EngineError → Bool
  | .stepBudgetExceeded _ | .recursionLimit _ => true
  | _ => false

/-- The step of the turn does not fail because a limit is reached. -/
def Turn.SparesLimits (engine : Engine) (turn : Turn) : Prop :=
  ∀ error, (turn.step engine).2 = .error error → error.isLimit = false

instance (engine : Engine) (turn : Turn) : Decidable (turn.SparesLimits engine) :=
  match h : (turn.step engine).2 with
  | .ok _ => .isTrue fun _ hfailed => nomatch h.symm.trans hfailed
  | .error error =>
    decidable_of_iff (error.isLimit = false)
      ⟨fun hspared _ hfailed => Except.error.inj (h.symm.trans hfailed) ▸ hspared,
        fun hspares => hspares error h⟩

namespace Turn

variable {engine : Engine} {turn : Turn} {n : Nat}

/-! ## A turn with more of its budget left -/

/-- The turn with another count of steps. -/
def withTaken (turn : Turn) (n : Nat) : Turn :=
  { turn with taken := n }

/-- The round leads to the turn with another count of steps. -/
def Round.withTaken (n : Nat) : Round → Round
  | .onward turn => .onward (turn.withTaken n)
  | .ended turn => .ended (turn.withTaken n)

theorem settle_withTaken (turn : Turn) (outcome : Outcome) (n : Nat) :
    (turn.withTaken n).settle outcome =
      ((turn.settle outcome).1.withTaken n, (turn.settle outcome).2) := by
  obtain ⟨scene, next⟩ := outcome
  match next with
  | .error e => rfl
  | .ok .proceed => rfl
  | .ok .await => rfl
  | .ok .leave => rfl
  | .ok (.enter frame) => rfl
  | .ok (.restart none) => rfl
  | .ok (.restart (some flow)) => rfl

theorem runStep_withTaken (turn : Turn) (frame : Frame) (step : Step) (n : Nat) :
    runStep engine (turn.withTaken n) frame step =
      ((runStep engine turn frame step).1.withTaken n, (runStep engine turn frame step).2) := by
  have hscopes : (turn.withTaken n).session.scopes = turn.session.scopes := rfl
  unfold runStep
  rw [hscopes]
  cases turn.session.scopes.get? frame.scope with
  | none => rfl
  | some vars => exact settle_withTaken turn _ n

theorem resume_withTaken (turn : Turn) (n : Nat) :
    (turn.withTaken n).resume engine =
      ((turn.resume engine).1.withTaken n, (turn.resume engine).2) := by
  have hlevels : (turn.withTaken n).session.levels = turn.session.levels := rfl
  unfold resume
  rw [hlevels]
  cases turn.session.levels.leave with
  | error e => rfl
  | ok left =>
      obtain ⟨levels, level⟩ := left
      simp only
      cases levels.top? with
      | none => rfl
      | some frame => rfl

theorem finishFrame_withTaken (turn : Turn) (frame : Frame) (n : Nat) :
    (turn.withTaken n).finishFrame frame =
      ((turn.finishFrame frame).1.withTaken n, (turn.finishFrame frame).2) := by
  unfold finishFrame
  simp only
  cases frame.transaction.ifOpen Transaction.complete with
  | error e => rfl
  | ok transaction => rfl

/-- A turn that does not stop at the budget has the same task if it has taken fewer steps. -/
theorem task_withTaken (hn : n ≤ turn.taken) (hstop : turn.task engine ≠ .stop) :
    (turn.withTaken n).task engine = turn.task engine := by
  unfold task at hstop ⊢
  have hlevels : (turn.withTaken n).session.levels = turn.session.levels := rfl
  have htaken : (turn.withTaken n).taken = n := rfl
  rw [hlevels, htaken]
  cases htop : turn.session.levels.top? with
  | none => rfl
  | some frame =>
      simp only [htop] at hstop ⊢
      by_cases hlimit : engine.settings.maxSteps < turn.taken + 1
      · simp [hlimit] at hstop
      · have hwithin : ¬engine.settings.maxSteps < n + 1 := by omega
        simp only [hlimit, hwithin, if_false]

/-- Unless a limit is reached, a turn that has taken fewer steps does the same step. -/
theorem step_withTaken (hn : n ≤ turn.taken) (hlimits : turn.SparesLimits engine) :
    ∃ m ≤ (turn.step engine).1.taken,
      (turn.withTaken n).step engine =
        ((turn.step engine).1.withTaken m, (turn.step engine).2) := by
  have hstop : turn.task engine ≠ .stop := by
    intro hstop
    cases hlimits (.stepBudgetExceeded engine.settings.maxSteps)
      (by rw [step_eq_carried, hstop]; rfl)
  rw [step_eq_carried, step_eq_carried, task_withTaken hn hstop]
  have hcharge := taken_carried engine turn (turn.task engine)
  cases htask : turn.task engine with
  | rest => exact ⟨n, hn, rfl⟩
  | stop => exact absurd htask hstop
  | resume =>
      rw [htask] at hcharge
      exact ⟨n, Nat.le_trans hn hcharge.2, resume_withTaken turn n⟩
  | complete frame =>
      rw [htask] at hcharge
      have htaken : n + 1 ≤ (turn.carried engine (.complete frame)).1.taken := by
        rw [hcharge.1 rfl]
        exact Nat.succ_le_succ hn
      exact ⟨n + 1, htaken, finishFrame_withTaken turn.charged frame (n + 1)⟩
  | dispatch frame step =>
      rw [htask] at hcharge
      have htaken : n + 1 ≤ (turn.carried engine (.dispatch frame step)).1.taken := by
        rw [hcharge.1 rfl]
        exact Nat.succ_le_succ hn
      exact ⟨n + 1, htaken, runStep_withTaken turn.charged frame step (n + 1)⟩

theorem concluded_withTaken (turn : Turn) (n : Nat) :
    (turn.withTaken n).concluded engine = (turn.concluded engine).withTaken n := by
  have houtbox : (turn.withTaken n).session.outbox = turn.session.outbox := rfl
  unfold concluded
  rw [houtbox]
  split
  · rfl
  · rfl

theorem round_withTaken (hn : n ≤ turn.taken) (hlimits : turn.SparesLimits engine) :
    ∃ m, (turn.withTaken n).round engine = (turn.round engine).withTaken m ∧
      ∀ next, turn.round engine = .onward next → m ≤ next.taken := by
  obtain ⟨m, hm, hstep⟩ := step_withTaken hn hlimits
  refine ⟨m, ?_⟩
  unfold SparesLimits at hlimits
  unfold round
  rw [hstep]
  generalize turn.step engine = result at hm hlimits
  obtain ⟨after, progress⟩ := result
  match progress with
  | .ok .running => exact ⟨rfl, fun next hnext => by cases hnext; exact hm⟩
  | .ok .blocked => exact ⟨rfl, nofun⟩
  | .ok .done => exact ⟨congrArg Round.ended (concluded_withTaken after m), nofun⟩
  | .error e =>
      have hlimit := hlimits e rfl
      have hbudget : e.isBudget = false := by
        cases e with
        | stepBudgetExceeded limit => cases hlimit
        | _ => rfl
      simp only [hbudget]
      exact ⟨rfl, fun next hnext => by cases hnext; exact hm⟩

/-- A run that reaches no limit takes place as well if fewer steps were taken before it. -/
theorem Runs.withTaken {trail : List Turn} {final : Turn} (hrun : Runs engine turn trail final)
    (hn : n ≤ turn.taken) (hlimits : ∀ round ∈ trail, round.SparesLimits engine) :
    ∃ others m, Runs engine (turn.withTaken n) others (final.withTaken m) := by
  induction hrun generalizing n with
  | last hended =>
      obtain ⟨m, hround, -⟩ := round_withTaken hn (hlimits _ List.mem_cons_self)
      rw [hended] at hround
      exact ⟨_, m, .last hround⟩
  | more honward hrest ih =>
      obtain ⟨m, hround, hm⟩ := round_withTaken hn (hlimits _ List.mem_cons_self)
      obtain ⟨others, last, hothers⟩ := ih (hm _ honward) fun round hmem =>
        hlimits round (List.mem_cons_of_mem _ hmem)
      rw [honward] at hround
      exact ⟨_, last, .more hround hothers⟩

end Turn

end Parley
