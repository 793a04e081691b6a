import Parley.Flow.Error

/-!
# The outline of a flow

Before a flow is decoded, its outline is checked: the steps are a list, every
step names one of the seven kinds, and every branch is a single step.  Steps are
visited in order, and below a step its branches or its handler.
-/

set_option autoImplicit false

namespace Parley

namespace Outline

/-- The kind that a step names. -/
def kindOf (flow : String) (step : Json) : Except DefinitionError StepKind :=
  match (step.get? "type").bind Json.asStr? with
  | none => .error (.malformed flow .stepWithoutType)
  | some name =>
    match StepKind.ofName? name with
    | some kind => .ok kind
    | none => .error (.unknownStepType flow name)

mutual

/-- Checks a step and the steps inside it. -/
def checkStep (flow : String) (step : Json) : Except DefinitionError Unit :=
  match kindOf flow step, step with
  | .error e, _ => .error e
  | .ok .switch, .obj fields => checkBranchesIn flow .switch fields
  | .ok .choose, .obj fields => checkBranchesIn flow .choose fields
  | .ok .callTool, .obj fields => checkHandlerIn flow fields
  | .ok _, _ => .ok ()

/-- Checks the branches among the entries of a step of the given kind. -/
def checkBranchesIn (flow : String) (kind : StepKind) :
    List (String × Json) → Except DefinitionError Unit
  | [] => .error (.malformed flow (.branchesNotMap kind))
  | (key, value) :: fields =>
    if key = "branches" then checkBranchMap flow kind value else checkBranchesIn flow kind fields

/-- Checks the branches of a step of the given kind. -/
def checkBranchMap (flow : String) (kind : StepKind) : Json → Except DefinitionError Unit
  | .obj entries => checkBranches flow entries
  | _ => .error (.malformed flow (.branchesNotMap kind))

/-- Checks branches in order. -/
def checkBranches (flow : String) : List (String × Json) → Except DefinitionError Unit
  | [] => .ok ()
  | (key, value) :: entries =>
    if value.asArr?.isSome then .error (.malformed flow (.branchIsList key))
    else
      match checkStep flow value with
      | .error e => .error e
      | .ok () => checkBranches flow entries

/-- Checks the handler among the entries of a step. -/
def checkHandlerIn (flow : String) : List (String × Json) → Except DefinitionError Unit
  | [] => .ok ()
  | (key, value) :: fields =>
    if key = "onFail" then checkStep flow value else checkHandlerIn flow fields

end

/-- Checks steps in order. -/
def checkSteps (flow : String) : List Json → Except DefinitionError Unit
  | [] => .ok ()
  | step :: steps =>
    match checkStep flow step with
    | .error e => .error e
    | .ok () => checkSteps flow steps

/-- The name by which errors refer to a flow. -/
def nameOf (flow : Json) : String :=
  ((flow.get? "name").bind Json.asStr?).getD "<unnamed>"

/-- Checks a flow. -/
def checkFlow (flow : Json) : Except DefinitionError Unit :=
  match (flow.get? "steps").bind Json.asArr? with
  | none => .error (.malformed (nameOf flow) .stepsNotList)
  | some steps => checkSteps (nameOf flow) steps

end Outline

end Parley
