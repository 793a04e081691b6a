import Parley.Table

/-!
# Entries of a conversation

Who said what.
-/

set_option autoImplicit false

namespace Parley

/-- Who produced an entry. -/
inductive Role where
  | user
  | assistant
  | tool
  | system
  deriving DecidableEq, Repr

namespace Role

/-- The name of a role. -/
def name : Role → String
  | user => "user"
  | assistant => "assistant"
  | tool => "tool"
  | system => "system"

/-- The roles and their names. -/
def names : Table String Role :=
  [("user", user), ("assistant", assistant), ("tool", tool), ("system", system)]

/-- The role with this name. -/
def ofName? (text : String) : Option Role :=
  Table.get? text names

end Role

/-- One entry of a conversation. -/
structure Entry where
  role : Role
  content : String
  deriving DecidableEq, Repr

namespace Entry

/-- What the assistant said. -/
def assistant (content : String) : Entry :=
  ⟨.assistant, content⟩

/-- What a tool reported. -/
def tool (content : String) : Entry :=
  ⟨.tool, content⟩

end Entry

end Parley
