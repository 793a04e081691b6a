import Parley.Flow.Library
import Parley.Tool.Definition

/-!
# References between definitions

The flows and tools that steps refer to should exist.  The check visits flows in
the order of the library, and below a step its branches or its handler.
-/

set_option autoImplicit false

namespace Parley

/-- What is wrong with a flow beside other definitions. -/
inductive Problem where
  /-- The flow has no steps. -/
  | noSteps (flow : String)
  /-- A step hands over to a flow that does not exist. -/
  | unknownFlow (flow target : String)
  /-- A step calls a tool that does not exist. -/
  | unknownTool (flow tool : String)
  /-- A step sets a variable without name. -/
  | setWithoutVariable (flow : String)
  deriving DecidableEq, Repr

namespace Problem

/-- The text of the problem. -/
def message : Problem → String
  | noSteps flow => "flow '" ++ flow ++ "' has no steps"
  | unknownFlow flow target => "flow '" ++ flow ++ "' calls unknown flow '" ++ target ++ "'"
  | unknownTool flow tool => "flow '" ++ flow ++ "' uses unknown tool '" ++ tool ++ "'"
  | setWithoutVariable flow => "flow '" ++ flow ++ "' has a SET step without a variable"

end Problem

namespace References

mutual

/-- The problems of a step of a flow. -/
def ofStep (library : Library) (registry : Registry) (flow : String) : Step → List Problem
  | .callFlow _ target _ =>
    if (library.get? target).isNone then [.unknownFlow flow target] else []
  | .callTool _ call onFail =>
    (if (registry.get? call.tool).isNone then [.unknownTool flow call.tool] else [])
      ++ ofHandler library registry flow onFail
  | .switch _ _ branches => ofBranches library registry flow branches
  | .choose _ branches => ofChoices library registry flow branches
  | .set _ target _ => if target.isEmpty then [.setWithoutVariable flow] else []
  | .say _ _ => []
  | .ask _ _ _ => []

/-- The problems of branches on a value. -/
def ofBranches (library : Library) (registry : Registry) (flow : String) :
    List (String × Step) → List Problem
  | [] => []
  | (_, step) :: rest =>
    ofStep library registry flow step ++ ofBranches library registry flow rest

/-- The problems of branches on conditions. -/
def ofChoices (library : Library) (registry : Registry) (flow : String) :
    List (Guard × Step) → List Problem
  | [] => []
  | (_, step) :: rest => ofStep library registry flow step ++ ofChoices library registry flow rest

/-- The problems of a handler. -/
def ofHandler (library : Library) (registry : Registry) (flow : String) :
    Option Step → List Problem
  | none => []
  | some step => ofStep library registry flow step

end

/-- The problems of a flow. -/
def ofFlow (library : Library) (registry : Registry) (definition : Definition) : List Problem :=
  (if definition.steps.isEmpty then [.noSteps definition.name] else [])
    ++ definition.steps.flatMap (ofStep library registry definition.name)

/-- The problems of all flows of a library. -/
def problems (library : Library) (registry : Registry) : List Problem :=
  library.flows.flatMap (ofFlow library registry)

end References

end Parley
