import Parley.Proofs.Rounds

/-!
# Whole runs

A run of a turn is told by the turns in which its rounds begin and by the turn at
its end.  There are always enough rounds for a run to come to its end, because a
round takes a step of the budget or leaves a level.  Whatever a round preserves
holds throughout a run.
-/

set_option autoImplicit false

namespace Parley

namespace Turn

variable {engine : Engine} {turn : Turn}

/-! ## Rounds -/

/-- A round after which the turn goes on is a step that was finished, or one that failed without
using up the budget. -/
theorem round_onward {next : Turn} (h : turn.round engine = .onward next) :
    turn.step engine = (next, .ok .running) ∨
      ∃ failed error, turn.step engine = (failed, .error error) ∧ error.isBudget = false ∧
        next = failed.abort engine error := by
  unfold round at h
  split at h
  · rename_i after hstep
    cases h
    exact .inl hstep
  · cases h
  · cases h
  · rename_i failed error hstep
    split at h
    · cases h
    · rename_i hbudget
      cases h
      exact .inr ⟨failed, error, hstep, by simpa using hbudget, rfl⟩

/-- A round that ends the turn waits for an answer, has nothing left to do, or has used up the
budget. -/
theorem round_ended {final : Turn} (h : turn.round engine = .ended final) :
    turn.step engine = (final, .ok .blocked) ∨
      (∃ idle, turn.step engine = (idle, .ok .done) ∧ final = idle.concluded engine) ∨
      ∃ failed error, turn.step engine = (failed, .error error) ∧ error.isBudget = true ∧
        final = failed.abort engine error := by
  unfold round at h
  split at h
  · cases h
  · rename_i after hstep
    cases h
    exact .inl hstep
  · rename_i idle hstep
    cases h
    exact .inr (.inl ⟨idle, hstep, rfl⟩)
  · rename_i failed error hstep
    split at h
    · rename_i hbudget
      cases h
      exact .inr (.inr ⟨failed, error, hstep, hbudget, rfl⟩)
    · cases h

/-- A step that waits for an answer ends the turn. -/
theorem round_of_blocked (h : (turn.step engine).2 = .ok .blocked) :
    turn.round engine = .ended (turn.step engine).1 := by
  unfold round
  generalize turn.step engine = result at h ⊢
  obtain ⟨after, progress⟩ := result
  subst h
  rfl

/-- Showing that all is done changes only the messages. -/
theorem levels_concluded (engine : Engine) (turn : Turn) :
    (turn.concluded engine).session.levels = turn.session.levels ∧
      (turn.concluded engine).session.scopes = turn.session.scopes := by
  unfold concluded
  split
  · exact ⟨rfl, rfl⟩
  · exact ⟨rfl, rfl⟩

/-! ## The end of a run -/

/-- How many rounds are still possible before the last one. -/
def remaining (engine : Engine) (turn : Turn) : Nat :=
  (engine.settings.maxSteps - turn.taken) + turn.session.levels.suspended.length

theorem suspended_modifyTop (levels : Levels) (change : Frame → Frame) :
    (levels.modifyTop change).suspended = levels.suspended := by
  rw [Levels.modifyTop_eq]

/-- No step adds a level, and a step of a frame leaves the count of steps to the budget. -/
theorem settle_remaining (turn : Turn) (outcome : Outcome) :
    (turn.settle outcome).1.taken = turn.taken ∧
      (turn.settle outcome).1.session.levels.suspended.length ≤
        turn.session.levels.suspended.length := by
  obtain ⟨scene, next⟩ := outcome
  have hadopt : (turn.adopt scene).session.levels.suspended = turn.session.levels.suspended :=
    suspended_modifyTop _ _
  have hkept := Nat.le_of_eq (congrArg List.length hadopt)
  match next with
  | .error e => exact ⟨rfl, hkept⟩
  | .ok .proceed => exact ⟨rfl, hkept⟩
  | .ok .await => exact ⟨rfl, hkept⟩
  | .ok .leave => exact ⟨rfl, hkept⟩
  | .ok (.enter frame) => exact ⟨rfl, hkept⟩
  | .ok (.restart none) => exact ⟨rfl, Nat.zero_le _⟩
  | .ok (.restart (some flow)) => exact ⟨rfl, Nat.zero_le _⟩

/-- A step after which something is left to do is charged to the budget, or leaves a level. -/
theorem step_remaining (engine : Engine) (turn : Turn) :
    (turn.step engine).2 = .ok .done ∨
      (∃ limit, (turn.step engine).2 = .error (.stepBudgetExceeded limit)) ∨
      (turn.step engine).1.remaining engine < turn.remaining engine := by
  unfold step
  split
  · split
    · exact .inl rfl
    · rename_i hsuspended
      refine .inr (.inr ?_)
      -- going on with an interrupted level is free, but leaves one level fewer
      unfold resume Levels.leave
      cases hlevels : turn.session.levels.suspended with
      | nil => simp [hlevels] at hsuspended
      | cons level below =>
          simp only
          split
          · simp [remaining, withLevels, withSession, hlevels]
          · simp [remaining, withLevels, withSession, modifyTop, tell, Session.tell,
              suspended_modifyTop, hlevels]
  · rename_i frame htop
    simp only
    split
    · exact .inr (.inl ⟨_, rfl⟩)
    · rename_i hlimit
      refine .inr (.inr ?_)
      have hcharge : ∀ after : Turn, after.taken = turn.taken + 1 →
          after.session.levels.suspended.length ≤ turn.session.levels.suspended.length →
          after.remaining engine < turn.remaining engine := by
        intro after htaken hlength
        unfold remaining
        omega
      split
      · unfold finishFrame
        simp only
        split
        · exact hcharge _ rfl (Nat.le_refl _)
        · exact hcharge _ rfl (Nat.le_refl _)
      · unfold runStep
        split
        · exact hcharge _ rfl (Nat.le_refl _)
        · obtain ⟨htaken, hlength⟩ := settle_remaining { turn with taken := turn.taken + 1 } _
          exact hcharge _ htaken hlength

/-- Every round after which the turn goes on leaves fewer that are still possible. -/
theorem round_remaining {next : Turn} (h : turn.round engine = .onward next) :
    next.remaining engine < turn.remaining engine := by
  have hstep := step_remaining engine turn
  rcases round_onward h with hrunning | ⟨failed, error, hfailed, hbudget, rfl⟩
  · simpa [hrunning] using hstep
  · rw [hfailed] at hstep
    rcases hstep with hdone | ⟨limit, hexceeded⟩ | hless
    · cases hdone
    · cases hexceeded
      cases hbudget
    · exact hless

/-- A run comes to its end within as many rounds as are possible. -/
theorem drive?_isSome {rounds : Nat} (h : turn.remaining engine < rounds) :
    ∃ final, drive? engine rounds turn = some final := by
  induction rounds generalizing turn with
  | zero => cases h
  | succ rounds ih =>
      unfold drive?
      cases hround : turn.round engine with
      | onward next =>
          have hless := round_remaining hround
          exact ih (by omega)
      | ended final => exact ⟨final, rfl⟩

/-! ## Runs -/

/-- The turns in which the rounds of a turn begin, at most `n` of them. -/
def roundsFrom (engine : Engine) : Nat → Turn → List Turn
  | 0, _ => []
  | n + 1, turn =>
    turn :: match turn.round engine with
      | .onward next => roundsFrom engine n next
      | .ended _ => []

/-- The turns in which the rounds of a turn begin. -/
def trail (engine : Engine) (turn : Turn) : List Turn :=
  roundsFrom engine (turn.rounds engine) turn

/-- A turn runs through rounds that begin with the turns of a list, and comes to its end. -/
inductive Runs (engine : Engine) : Turn → List Turn → Turn → Prop where
  | last {turn final : Turn} (hround : turn.round engine = .ended final) :
      Runs engine turn [turn] final
  | more {turn next final : Turn} {trail : List Turn} (hround : turn.round engine = .onward next)
      (hrest : Runs engine next trail final) : Runs engine turn (turn :: trail) final

theorem runs_of_drive? {rounds : Nat} {final : Turn} (h : drive? engine rounds turn = some final) :
    Runs engine turn (roundsFrom engine rounds turn) final := by
  induction rounds generalizing turn with
  | zero => cases h
  | succ rounds ih =>
      unfold drive? at h
      unfold roundsFrom
      cases hround : turn.round engine with
      | onward next =>
          simp only [hround] at h ⊢
          exact .more hround (ih h)
      | ended last =>
          simp only [hround, Option.some.injEq] at h ⊢
          subst h
          exact .last hround

/-- Every turn runs to its end. -/
theorem runs_drive (engine : Engine) (turn : Turn) :
    Runs engine turn (turn.trail engine) (turn.drive engine) := by
  have hrounds : turn.remaining engine < turn.rounds engine := by
    simp only [remaining, rounds, Levels.count]
    omega
  obtain ⟨final, hfinal⟩ := drive?_isSome hrounds
  have hdrive : turn.drive engine = final := by simp [drive, hfinal]
  rw [hdrive]
  exact runs_of_drive? hfinal

/-- The first round of a turn begins with the turn itself. -/
theorem trail_eq (engine : Engine) (turn : Turn) :
    ∃ later, turn.trail engine = turn :: later :=
  ⟨_, rfl⟩

namespace Runs

variable {trail : List Turn} {final : Turn}

theorem mem_first (hrun : Runs engine turn trail final) : turn ∈ trail := by
  cases hrun with
  | last hround => exact List.mem_cons_self
  | more hround hrest => exact List.mem_cons_self

/-- A run whose first round ends the turn has no other. -/
theorem of_ended {last : Turn} (hrun : Runs engine turn trail final)
    (h : turn.round engine = .ended last) : trail = [turn] ∧ final = last := by
  cases hrun with
  | last hround =>
      rw [hround] at h
      cases h
      exact ⟨rfl, rfl⟩
  | more hround hrest =>
      rw [hround] at h
      cases h

/-- What every round preserves holds at the beginning of every round, the last one among them. -/
theorem invariant {P : Turn → Prop} (hrun : Runs engine turn trail final)
    (hround : ∀ turn next, P turn → turn.round engine = .onward next → P next) (hstart : P turn) :
    (∀ t ∈ trail, P t) ∧ ∃ last ∈ trail, P last ∧ last.round engine = .ended final := by
  induction hrun with
  | last hended => exact ⟨by simpa using hstart, _, List.mem_cons_self, hstart, hended⟩
  | more honward hrest ih =>
      obtain ⟨hall, last, hmem, hlast, hended⟩ := ih (hround _ _ hstart honward)
      refine ⟨?_, last, List.mem_cons_of_mem _ hmem, hlast, hended⟩
      intro t ht
      rcases List.mem_cons.1 ht with rfl | hlater
      · exact hstart
      · exact hall t hlater

end Runs

/-! ## Sessions stay in order -/

theorem round_inOrder {next : Turn} (horder : turn.session.InOrder)
    (h : turn.round engine = .onward next) : next.session.InOrder := by
  have hstep : (turn.step engine).1.session.InOrder := step_inOrder horder
  rcases round_onward h with hrunning | ⟨failed, error, hfailed, -, rfl⟩
  · rwa [hrunning] at hstep
  · rw [hfailed] at hstep
    exact abort_inOrder hstep error

theorem ended_inOrder {final : Turn} (horder : turn.session.InOrder)
    (h : turn.round engine = .ended final) : final.session.InOrder := by
  have hstep : (turn.step engine).1.session.InOrder := step_inOrder horder
  rcases round_ended h with hblocked | ⟨idle, hdone, rfl⟩ | ⟨failed, error, hfailed, -, rfl⟩
  · rwa [hblocked] at hstep
  · rw [hdone] at hstep
    obtain ⟨hlevels, hscopes⟩ := levels_concluded engine idle
    constructor
    · rw [hlevels, hscopes]
      exact hstep.wellScoped
    · rw [hlevels]
      exact hstep.wellAccounted
  · rw [hfailed] at hstep
    exact abort_inOrder hstep error

/-- A run that begins in order is in order at the beginning of every round and at its end. -/
theorem Runs.inOrder {trail : List Turn} {final : Turn} (hrun : Runs engine turn trail final)
    (horder : turn.session.InOrder) :
    (∀ t ∈ trail, t.session.InOrder) ∧ final.session.InOrder := by
  obtain ⟨hall, last, -, hlast, hended⟩ := hrun.invariant (fun _ _ => round_inOrder) horder
  exact ⟨hall, ended_inOrder hlast hended⟩

end Turn

end Parley
