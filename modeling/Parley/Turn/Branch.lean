import Parley.Turn.Scene

/-!
# Steps that branch

The step of the branch that is taken takes the place of the branching step.
-/

set_option autoImplicit false

namespace Parley

/-- The key of the branch for a value: only strings and numbers have one. -/
def branchKey? : Json → Option String
  | .str s => some s
  | .num n => some (Json.num n).display
  | _ => none

/-- The branch with the given key; the one for all other values is not found under its key. -/
def keyedBranch? (key : String) (branches : List (String × Step)) : Option Step :=
  if key = Guard.otherwiseKey then none else Table.get? key branches

/-- The branch for a value. -/
def branchFor? (value : Json) (branches : List (String × Step)) : Option Step :=
  ((branchKey? value).bind fun key => keyedBranch? key branches).or
    (Table.get? Guard.otherwiseKey branches)

/-- The first branch whose condition holds, else the first one for when none does. -/
def choiceFor? (holds : String → Bool) (branches : List (Guard × Step)) : Option Step :=
  let accepts := fun (branch : Guard × Step) => match branch.1 with
    | .condition source => holds source
    | .otherwise => false
  ((branches.find? accepts).or (branches.find? fun branch => branch.1 = .otherwise)).map Prod.snd

namespace Stage

/-- Takes a branch, if there is one to take. -/
def takeBranch (kind : StepKind) (id : String) (branch : Option Step) (missing : String)
    (scene : Scene) : Outcome :=
  match branch with
  | some step => scene.finished kind id fun scene => (scene.pushStep step).outcome .proceed
  | none => scene.failure (.noMatchingBranch kind missing)

/-- Branches on the value of a variable. -/
def switch (id subject : String) (branches : List (String × Step)) (scene : Scene) : Outcome :=
  let value := (Table.get? subject scene.vars).getD .null
  takeBranch .switch id (branchFor? value branches) (subject ++ " = " ++ value.text) scene

/-- Branches on conditions. -/
def choose (stage : Stage) (id : String) (branches : List (Guard × Step)) (scene : Scene) :
    Outcome :=
  let holds := stage.engine.evaluator.holds (stage.scopeIn scene)
  takeBranch .choose id (choiceFor? holds branches) "every condition" scene

end Stage

end Parley
