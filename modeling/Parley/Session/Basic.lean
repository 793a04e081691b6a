import Parley.Session.Scopes
import Parley.Session.Levels

/-!
# Sessions

A session is the whole state of one conversation.
-/

set_option autoImplicit false

namespace Parley

/-- The state of a conversation. -/
structure Session where
  id : String
  userId : String
  /-- The flows in progress. -/
  levels : Levels
  /-- The variables of the flows in progress. -/
  scopes : Scopes
  /-- Messages that have not been shown yet. -/
  outbox : List String
  /-- The last entry of the conversation. -/
  lastEntry : Option Entry
  /-- The variables that every flow starts with. -/
  globals : Fields
  /-- The entries that came while no flow was in progress. -/
  history : List Entry

namespace Session

/-- A session in which nothing has happened yet. -/
def start (id userId : String) (globals : Fields) : Session :=
  ⟨id, userId, .empty, .empty, [], none, globals, []⟩

/-- The first frame, from the outermost level inward and on each level from the caller to the
called one, whose scope does not exist. -/
def danglingFrame? (session : Session) : Option Frame :=
  session.levels.frames.reverse.find? fun frame => !session.scopes.has frame.scope

/-- The session with a further message to show. -/
def tell (session : Session) (text : String) : Session :=
  { session with outbox := session.outbox ++ [text] }

/-- The session without the scopes that no frame refers to. -/
def collectScopes (session : Session) : Session :=
  { session with scopes := session.scopes.retain (session.levels.frames.map Frame.scope) }

/-- The messages of one response, with a blank line between neighbours. -/
def joinMessages (messages : List String) : String :=
  joined "\n\n" messages

/-- The session without unseen messages, and these messages as one response, if there are some. -/
def flush (session : Session) : Session × Option String :=
  if session.outbox.isEmpty then (session, none)
  else ({ session with outbox := [] }, some (joinMessages session.outbox))

/-- Equality of sessions. -/
def same (a b : Session) : Bool :=
  a.id == b.id && a.userId == b.userId && a.levels.same b.levels && a.scopes.same b.scopes
    && a.outbox == b.outbox && a.lastEntry == b.lastEntry
    && (Json.obj a.globals).same (.obj b.globals) && a.history == b.history

end Session

end Parley
