import Parley.Proofs.Conversations

/-!
# Transactions in every round

Whenever a round begins, the transactions of the frames are as far as the frames
are themselves.  So no operation that a step makes on a transaction is refused,
no scope is missed and no level is left that cannot be left: what a step may fail
of is a lack of room, of steps or of a branch.
-/

set_option autoImplicit false

namespace Parley

namespace Levels

/-- The transactions of the frames that can run refuse nothing: they take records, and they can be
finished in every way. -/
structure Accepting (levels : Levels) : Prop where
  log : ∀ frame ∈ levels.current, ∀ record, ∃ logged, frame.transaction.log record = .ok logged
  complete : ∀ frame ∈ levels.current, ∃ closed, frame.transaction.complete = .ok closed
  fail : ∀ frame ∈ levels.current, ∀ reason, ∃ closed, frame.transaction.fail reason = .ok closed
  rollBack : ∀ frame ∈ levels.current, ∀ reason,
    ∃ closed, frame.transaction.rollBack reason = .ok closed

theorem WellAccounted.accepting {levels : Levels} (h : levels.WellAccounted) :
    levels.Accepting := by
  refine ⟨?_, ?_, ?_, ?_⟩
  · intro frame hframe record
    exact ⟨_, Transaction.log_of_active (h.running frame hframe) record⟩
  · intro frame hframe
    exact ⟨_, Transaction.finish_of_active (h.running frame hframe) _ _⟩
  · intro frame hframe reason
    exact ⟨_, Transaction.finish_of_active (h.running frame hframe) _ _⟩
  · intro frame hframe reason
    exact ⟨_, Transaction.finish_of_active (h.running frame hframe) _ _⟩

end Levels

namespace Turn

variable {engine : Engine} {turn : Turn}

/-- A settled outcome fails only of what the outcome itself failed of. -/
theorem settle_error {outcome : Outcome} {error : EngineError}
    (h : (turn.settle outcome).2 = .error error) : outcome.next = .error error := by
  obtain ⟨scene, next⟩ := outcome
  cases next with
  | error e => simpa [settle] using h
  | ok next => cases h

/-- A step in a session in order fails of three things at most. -/
theorem step_error (horder : turn.session.InOrder) {error : EngineError}
    (h : (turn.step engine).2 = .error error) :
    (∃ limit, error = .recursionLimit limit) ∨ (∃ limit, error = .stepBudgetExceeded limit) ∨
      ∃ kind detail, error = .noMatchingBranch kind detail := by
  have hmove := step_move engine horder
  generalize turn.step engine = result at hmove h
  cases hmove with
  | idled hlevels => cases h
  | resumed frame callers below hlevels => cases h
  | exhausted frame callers suspended hlevels hlimit =>
      cases h
      exact .inr (.inl ⟨_, rfl⟩)
  | finished frame callers suspended hlevels hlimit hsteps => cases h
  | performed frame callers suspended step rest vars outcome hlevels hlimit hsteps hvars heffect =>
      exact (heffect.error (settle_error h)).imp_right .inr

end Turn

namespace Engine

variable {engine : Engine} {session : Session}

/-- Between exchanges and at the beginning of every round, transactions are as far as they should be
and those of the frames that can run refuse nothing.  Then every frame finds its scope, and a step
that fails has no room for another frame, no steps left in the budget or no branch to take.  What it
leaves, finished or not, still refuses nothing. -/
theorem transactions_in_every_round (h : engine.Reachable session) :
    session.levels.WellAccounted ∧ session.levels.Accepting ∧
      ∀ exchange, ∀ turn ∈ engine.trail session exchange,
        turn.session.levels.WellAccounted ∧ turn.session.levels.Accepting ∧
        (∀ frame ∈ turn.session.levels.frames,
          ∃ vars, turn.session.scopes.get? frame.scope = some vars) ∧
        (turn.step engine).1.session.levels.Accepting ∧
        ∀ error, (turn.step engine).2 = .error error →
          (∃ limit, error = .recursionLimit limit) ∨
          (∃ limit, error = .stepBudgetExceeded limit) ∨
          ∃ kind detail, error = .noMatchingBranch kind detail := by
  have hsession := h.inOrder.wellAccounted
  refine ⟨hsession, hsession.accepting, ?_⟩
  intro exchange turn hturn
  have horder := trail_inOrder h.inOrder exchange hturn
  refine ⟨horder.wellAccounted, horder.wellAccounted.accepting, ?_, ?_, ?_⟩
  · intro frame hframe
    exact Scopes.has_iff.1 (horder.wellScoped.present frame hframe)
  · exact (Turn.step_inOrder horder).wellAccounted.accepting
  · intro error herror
    exact Turn.step_error horder herror

end Engine

namespace Kiosk

/-- In the first round of the turn that interrupts a flow, one level runs and one is paused. -/
theorem transactions_interrupted :
    ∃ turn ∈ engine.trail (sessionAfter ["Order"]) (guest "Weather"),
      turn.session.levels.count = 2 ∧ turn.session.levels.WellAccounted ∧
        turn.session.levels.Accepting := by
  have hrounds : ((engine.trail (sessionAfter ["Order"]) (guest "Weather")).any fun turn =>
      turn.session.levels.count == 2) = true := by decide +kernel
  obtain ⟨turn, hturn, hcount⟩ := List.any_eq_true.1 hrounds
  obtain ⟨-, -, hexchange⟩ := Engine.transactions_in_every_round (reachable_sessionAfter ["Order"])
  obtain ⟨haccounted, haccepting, -⟩ := hexchange (guest "Weather") turn hturn
  exact ⟨turn, hturn, by simpa using hcount, haccounted, haccepting⟩

end Kiosk

end Parley
