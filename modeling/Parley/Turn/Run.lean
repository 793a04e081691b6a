import Parley.Turn.Basic

/-!
# Running a turn

A turn runs until a question waits for its answer, no frames are left or the
allowed number of steps is used up.  Its messages together are the response.
-/

set_option autoImplicit false

namespace Parley

namespace Turn

/-- The turn when no frames are left: if it had nothing to show, it shows that all is done. -/
def concluded (engine : Engine) (turn : Turn) : Turn :=
  if turn.session.outbox.isEmpty then turn.tell (engine.notice .flowCompleted []) else turn

/-- What a round of a turn leads to. -/
inductive Round where
  /-- To a turn that goes on. -/
  | onward (turn : Turn)
  /-- To the end of the turn. -/
  | ended (turn : Turn)

/-- One round of a turn: a step, and what has to be done if it cannot be finished. -/
def round (engine : Engine) (turn : Turn) : Round :=
  match turn.step engine with
  | (turn, .ok .running) => .onward turn
  | (turn, .ok .blocked) => .ended turn
  | (turn, .ok .done) => .ended (turn.concluded engine)
  | (turn, .error e) =>
    if e.isBudget then .ended (turn.abort engine e) else .onward (turn.abort engine e)

/-- The turn at its end, unless that takes more than `n` rounds. -/
def drive? (engine : Engine) : Nat → Turn → Option Turn
  | 0, _ => none
  | n + 1, turn =>
    match turn.round engine with
    | .onward turn => drive? engine n turn
    | .ended turn => some turn

/-- How many rounds a turn takes at most: one for each allowed step, one for each level that is left
and one to end. -/
def rounds (engine : Engine) (turn : Turn) : Nat :=
  engine.settings.maxSteps + turn.session.levels.count + 1

/-- The turn at its end. -/
def drive (engine : Engine) (turn : Turn) : Turn :=
  (drive? engine (turn.rounds engine) turn).getD turn

/-- The turn at its end without the scopes and messages that are no longer needed, and the
response. -/
def run (engine : Engine) (turn : Turn) : Turn × Option String :=
  let turn := turn.drive engine
  let (session, response) := turn.session.collectScopes.flush
  (turn.withSession session, response)

end Turn

end Parley
