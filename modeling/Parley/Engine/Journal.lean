import Parley.Tool.Definition
import Parley.Tool.Failure

/-!
# The world outside

The engine asks a model for text and invokes tools.  A journal keeps what was
asked and invoked so far and how much time has passed; the answers of the model
and of the tools are functions of it.
-/

set_option autoImplicit false

namespace Parley

/-- The invocation of a tool. -/
structure Invocation where
  /-- The name of the tool. -/
  tool : String
  args : Json
  userId : String

/-- A question to the model. -/
structure Question where
  /-- What the model shall do. -/
  instruction : String
  /-- What it shall do it with. -/
  message : String
  deriving DecidableEq, Repr

/-- What has happened outside so far. -/
structure Journal where
  /-- The milliseconds that have passed. -/
  clock : Nat
  /-- The questions in order. -/
  asked : List Question
  /-- The invocations in order. -/
  invoked : List Invocation

namespace Journal

/-- Nothing has happened. -/
def empty : Journal :=
  ⟨0, [], []⟩

/-- The journal some milliseconds later. -/
def later (journal : Journal) (duration : Nat) : Journal :=
  { journal with clock := journal.clock + duration }

/-- The journal with a further question. -/
def noteQuestion (journal : Journal) (question : Question) : Journal :=
  { journal with asked := journal.asked ++ [question] }

/-- The journal with a further invocation. -/
def noteInvocation (journal : Journal) (invocation : Invocation) : Journal :=
  { journal with invoked := journal.invoked ++ [invocation] }

end Journal

/-- A value that is there after some milliseconds. -/
structure Delayed (α : Type) where
  delay : Nat
  value : α

namespace Delayed

/-- A value that is there at once. -/
def now {α : Type} (value : α) : Delayed α :=
  ⟨0, value⟩

/-- The value, or `late` as soon as the limit is over; no limit means to wait for the value. -/
def within {α : Type} (limit : Option Nat) (late : α) (delayed : Delayed α) : Delayed α :=
  match limit with
  | none => delayed
  | some limit => if limit < delayed.delay then ⟨limit, late⟩ else delayed

end Delayed

/-- How the model answers a question: with text, or with the reason why it cannot. -/
abbrev Model : Type :=
  Journal → Question → Delayed (Except String String)

/-- How a tool answers an invocation. -/
abbrev Invoker : Type :=
  Journal → Tool → Invocation → Delayed (Except ToolFailure Json)

/-- Functions of the host by name. -/
abbrev HostFunctions : Type :=
  Table String (Json → Except ToolFailure Json)

namespace HostFunctions

/-- How a tool that runs inside the host answers: its function has to be among the given ones. -/
def answer (functions : HostFunctions) (tool : Tool) (args : Json) : Except ToolFailure Json :=
  if tool.implementation.kind ≠ "local" then
    .error (.plain .unknown ("tool '" ++ tool.name ++ "' has a '" ++ tool.implementation.kind
      ++ "' implementation; only local tools run in-process"))
  else
    let name := tool.implementation.function.getD tool.name
    match Table.get? name functions with
    | some function => function args
    | none => .error (.plain .unknown ("function '" ++ name ++ "' is not approved"))

/-- The invoker that runs tools inside the host. -/
def invoker (functions : HostFunctions) : Invoker := fun _ tool invocation =>
  .now (answer functions tool invocation.args)

end HostFunctions

end Parley
