import Parley.Engine.Basic
import Parley.Turn.Reply

/-!
# Intents

The model is asked which flow an input is meant to start, and how clearly.
-/

set_option autoImplicit false

namespace Parley

/-- How clearly an input asks for a flow. -/
inductive Strength where
  | strong
  | weak
  | none
  deriving DecidableEq, Repr

namespace Strength

/-- The strengths and their names. -/
def names : Table String Strength :=
  [("strong", strong), ("weak", weak), ("none", none)]

end Strength

/-- The flow that an input asks for. -/
structure Intent where
  flow : Definition
  strength : Strength

namespace Intent

/-- The name of a flow and a strength, as the model replies. -/
def replyDecoder : Decoder (Option String × Strength) :=
  Record.read ["flow", "strength"] fun r =>
    Prod.mk <$> r.optional "flow" Decoder.string
      <*> r.withDefault "strength" Strength.none (Decoder.choice Strength.names false)

/-- The intent in a reply of the model. -/
def ofReply? (library : Library) (reply : String) : Option Intent :=
  match (Reply.value? reply).map replyDecoder with
  | some (.ok (some flow, strength)) => (library.get? flow).map fun flow => ⟨flow, strength⟩
  | _ => none

/-- What the model is told about the flow in progress. -/
def situation : Option String → String
  | some flow => "The user is currently in the flow '" ++ flow ++ "'."
  | none => "No flow is active."

/-- The line by which the model is told of a flow. -/
def menuLine (flow : Definition) : String :=
  "- " ++ flow.name ++ ": " ++ flow.description

/-- The instruction by which the model is asked for an intent. -/
def instruction (library : Library) (current : Option String) : String :=
  "You route user messages to conversational flows.\n" ++ situation current
    ++ "\nAvailable flows:\n" ++ joined "\n" (library.flows.map menuLine)
    ++ "\nReply with JSON only: \x7b\"flow\": \"<flow name or null>\", "
    ++ "\"strength\": \"strong|weak|none\"\x7d. "
    ++ "Use \"strong\" only when the message clearly asks to start that flow; answers to the "
    ++ "current question are \"none\"."

/-- Asks the model for the intent of an input. -/
def classify (engine : Engine) (journal : Journal) (input : String) (current : Option String) :
    Journal × Option Intent :=
  match engine.ask journal ⟨instruction engine.library current, input⟩ with
  | (journal, .ok reply) => (journal, ofReply? engine.library reply)
  | (journal, .error _) => (journal, none)

end Intent

end Parley
