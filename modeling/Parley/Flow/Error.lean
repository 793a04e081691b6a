import Parley.Flow.Step
import Parley.Json.Record

/-!
# Errors of definitions

Why flows and tools are refused when they are read or registered.
-/

set_option autoImplicit false

namespace Parley

/-- What a flow has the wrong shape for. -/
inductive Malformation where
  /-- The steps are not a list. -/
  | stepsNotList
  /-- A step does not name its kind. -/
  | stepWithoutType
  /-- The branches of a step are not an object. -/
  | branchesNotMap (kind : StepKind)
  /-- A branch is a list of steps. -/
  | branchIsList (key : String)
  /-- The flows of a collection are not a list. -/
  | flowsNotList
  /-- The value is neither a flow nor a collection of flows. -/
  | notFlows
  /-- A part does not decode. -/
  | undecodable (error : DecodeError)
  deriving DecidableEq, Repr

namespace Malformation

/-- The text of the fault. -/
def message : Malformation → String
  | stepsNotList => "'steps' must be a list"
  | stepWithoutType => "every step needs a string 'type'"
  | branchesNotMap kind => kind.name ++ " step needs a 'branches' map"
  | branchIsList key =>
    "branch '" ++ key ++ "' must be a single step; use a FLOW step for several"
  | flowsNotList => "'flows' must be a list"
  | notFlows => "expected a flow object or a list of flows"
  | undecodable error => error.message

end Malformation

/-- What is defined by a definition. -/
inductive DefinitionKind where
  | flow
  | tool
  deriving DecidableEq, Repr

namespace DefinitionKind

/-- The name of what is defined. -/
def name : DefinitionKind → String
  | flow => "flow"
  | tool => "tool"

end DefinitionKind

/-- Why a definition is refused. -/
inductive DefinitionError where
  /-- A step of the flow names a kind that does not exist. -/
  | unknownStepType (flow stepType : String)
  /-- The flow has the wrong shape. -/
  | malformed (flow : String) (cause : Malformation)
  /-- The name or id is taken. -/
  | duplicate (kind : DefinitionKind) (name : String)
  deriving DecidableEq, Repr

namespace DefinitionError

/-- The text of the error. -/
def message : DefinitionError → String
  | unknownStepType flow stepType =>
    "flow '" ++ flow ++ "' uses unknown step type '" ++ stepType ++ "'"
  | malformed flow cause => "flow '" ++ flow ++ "' is malformed: " ++ cause.message
  | duplicate kind name => "duplicate " ++ kind.name ++ " '" ++ name ++ "'"

end DefinitionError

end Parley
