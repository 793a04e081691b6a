import Parley.Text.Basic
import Parley.Decimal.Notation

/-!
# Failures of tools

A failed call of a tool has a category.  The category, the name of the tool and
the name of the flow decide whether the call may be tried again: everything that
touches money fails for good at once.
-/

set_option autoImplicit false

namespace Parley

/-- What kind of failure a call met. -/
inductive FailureCategory where
  | network
  | timeout
  | serverError
  | clientError
  | auth
  | rateLimit
  | toolCallGeneration
  | unknown
  deriving DecidableEq, Repr

namespace FailureCategory

/-- The name of the category. -/
def name : FailureCategory → String
  | network => "network"
  | timeout => "timeout"
  | serverError => "server_error"
  | clientError => "client_error"
  | auth => "auth"
  | rateLimit => "rate_limit"
  | toolCallGeneration => "tool_call_generation"
  | unknown => "unknown"

/-- Every category. -/
def all : List FailureCategory :=
  [network, timeout, serverError, clientError, auth, rateLimit, toolCallGeneration, unknown]

/-- The category with this name. -/
def ofName? (text : String) : Option FailureCategory :=
  all.find? fun category => category.name = text

/-- The category of an HTTP status. -/
def ofStatus (status : Nat) : FailureCategory :=
  if status = 401 || status = 403 then auth
  else if status = 408 then timeout
  else if status = 429 then rateLimit
  else if 400 ≤ status && status ≤ 499 then clientError
  else if 500 ≤ status && status ≤ 599 then serverError
  else unknown

/-- A failure of the category may pass by itself. -/
def isTransient : FailureCategory → Bool
  | network | timeout | serverError => true
  | _ => false

end FailureCategory

/-- A failed call of a tool. -/
structure ToolFailure where
  category : FailureCategory
  message : String
  /-- The HTTP status, if there was one. -/
  status : Option Nat
  deriving DecidableEq, Repr

namespace ToolFailure

/-- A failure without status. -/
def plain (category : FailureCategory) (message : String) : ToolFailure :=
  ⟨category, message, none⟩

/-- A failure with an HTTP status, which decides the category. -/
def http (status : Nat) (message : String) : ToolFailure :=
  ⟨.ofStatus status, message, some status⟩

/-- The failure in one line. -/
def describe (failure : ToolFailure) : String :=
  match failure.status with
  | some status =>
    failure.category.name ++ " (" ++ Decimal.text status ++ "): " ++ failure.message
  | none => failure.category.name ++ ": " ++ failure.message

end ToolFailure

/-- What to do about a failed call. -/
inductive FailureAction where
  /-- Try again, as often as the settings allow. -/
  | retry
  /-- Give up. -/
  | cancel
  deriving DecidableEq, Repr

/-- Words that mark a name as touching money. -/
def financialWords : List String :=
  ["payment", "account", "transaction", "transfer"]

/-- The name contains one of the words, in any case of ASCII letters. -/
def isFinancial (name : String) : Bool :=
  let name := Text.asciiLower name.toList
  financialWords.any fun word => Text.contains word.toList name

/-- What to do about a failure of the given category in a call of `tool` by `flow`. -/
def FailureAction.decide (category : FailureCategory) (tool flow : String) : FailureAction :=
  if isFinancial tool || isFinancial flow then .cancel
  else if category.isTransient then .retry
  else .cancel

end Parley
