import Parley.Conversation.Entry
import Parley.Flow.References
import Parley.Session.Basic

/-!
# Errors of the engine

What keeps an engine from being built, a turn from being taken, and a step from
being finished.
-/

set_option autoImplicit false

namespace Parley

/-- Why the engine cannot go on. -/
inductive EngineError where
  /-- Entries of this role do not drive a session. -/
  | invalidRole (role : Role)
  /-- There is no model. -/
  | missingModel
  /-- A frame of the given flow refers to a scope that does not exist. -/
  | danglingFrame (flow : String) (scope : Nat)
  /-- A scope that is needed does not exist. -/
  | missingScope (scope : Nat)
  /-- A definition is refused. -/
  | definition (cause : DefinitionError)
  /-- The definitions refer to others that do not exist. -/
  | validation (problems : List Problem)
  /-- A level would hold more frames than allowed. -/
  | recursionLimit (limit : Nat)
  /-- The turn would run more steps than allowed. -/
  | stepBudgetExceeded (limit : Nat)
  /-- A step has no branch to take. -/
  | noMatchingBranch (kind : StepKind) (detail : String)
  /-- A level cannot be left. -/
  | level (cause : LevelError)
  /-- A transaction takes no more records. -/
  | transaction (cause : TransactionError)
  deriving DecidableEq, Repr

namespace EngineError

/-- The text of the error; transactions have no ids of their own. -/
def message : EngineError → String
  | invalidRole role =>
    "role '" ++ role.name ++ "' cannot drive a session; use 'user' or 'assistant'"
  | missingModel => "an AI client is required to build the engine"
  | danglingFrame flow scope =>
    "session context is corrupt: frame for flow '" ++ flow ++ "' refers to missing scope "
      ++ Decimal.text scope
  | missingScope scope =>
    "session context is corrupt: scope " ++ Decimal.text scope ++ " does not exist"
  | definition cause => cause.message
  | validation problems =>
    "flow validation failed: " ++ joined "; " (problems.map Problem.message)
  | recursionLimit limit => "flow call depth exceeded the limit of " ++ Decimal.text limit
  | stepBudgetExceeded limit => "turn exceeded the budget of " ++ Decimal.text limit ++ " steps"
  | noMatchingBranch kind detail =>
    kind.name ++ " step has no branch for " ++ detail ++ " and no default"
  | level cause => cause.message
  | transaction cause => cause.message ""

/-- The turn has used up its steps. -/
def isBudget : EngineError → Bool
  | stepBudgetExceeded _ => true
  | _ => false

end EngineError

end Parley
