import Parley.Json.Record
import Parley.Tool.Failure

/-!
# Trying again

How often a failed call is tried again, and how long to wait before it.  Waiting
times are milliseconds in a 64-bit word; a product that does not fit stays at
the largest word, and no wait is longer than half a minute.
-/

set_option autoImplicit false

namespace Parley

/-- How the waiting time grows with the number of retries. -/
inductive Backoff where
  /-- It doubles with every retry. -/
  | exponential
  /-- It grows by the same amount with every retry. -/
  | linear
  /-- It is listed for every retry. -/
  | manual
  deriving DecidableEq, Repr

namespace Backoff

/-- The strategies and their names. -/
def names : Table String Backoff :=
  [("exponential", exponential), ("linear", linear), ("manual", manual)]

/-- The name of a strategy. -/
def name : Backoff → String
  | exponential => "exponential"
  | linear => "linear"
  | manual => "manual"

end Backoff

/-- The retry settings of one step. -/
structure RetryPolicy where
  /-- How often to try again. -/
  maxRetries : Option Nat
  strategy : Backoff
  /-- The base of the waiting time. -/
  delay : Option Nat
  /-- The waiting times of the manual strategy. -/
  delays : List Nat
  deriving DecidableEq, Repr

/-- The retry settings of steps that have none of their own. -/
structure RetryDefaults where
  maxRetries : Nat
  baseDelay : Nat
  deriving DecidableEq, Repr

/-- Whether to try again. -/
inductive RetryDecision where
  /-- Try again after so many milliseconds. -/
  | retry (delay : Nat)
  /-- Do not try again. -/
  | giveUp
  deriving DecidableEq, Repr

namespace Retry

/-- The longest wait. -/
def longest : Nat :=
  30000

/-- The largest word. -/
def wordLimit : Nat :=
  Nat.pow 2 64 - 1

/-- The product of two words, held at the largest word. -/
def saturatingMul (a b : Nat) : Nat :=
  min (a * b) wordLimit

/-- The power of two, held at the largest word. -/
def saturatingPow2 (n : Nat) : Nat :=
  if 64 ≤ n then wordLimit else Nat.pow 2 n

/-- The wait of the exponential strategy after so many retries. -/
def exponential (base retries : Nat) : Nat :=
  min (saturatingMul base (saturatingPow2 retries)) longest

end Retry

namespace RetryPolicy

/-- The wait after so many retries, where `fallback` is the base if the step names none. -/
def wait (policy : RetryPolicy) (retries fallback : Nat) : Nat :=
  let base := policy.delay.getD fallback
  let wait := match policy.strategy with
    | .exponential => Retry.exponential base retries
    | .linear => Retry.saturatingMul base (retries + 1)
    | .manual => (policy.delays[retries]?.or policy.delays.getLast?).getD base
  min wait Retry.longest

/-- Whether the call that just failed is tried again after `retries` earlier retries. -/
def decide (policy : Option RetryPolicy) (defaults : RetryDefaults) (retries : Nat)
    (action : FailureAction) : RetryDecision :=
  match action with
  | .cancel => .giveUp
  | .retry =>
    if ((policy.bind RetryPolicy.maxRetries).getD defaults.maxRetries) ≤ retries then .giveUp
    else
      match policy with
      | some policy => .retry (policy.wait retries defaults.baseDelay)
      | none => .retry (Retry.exponential defaults.baseDelay retries)

/-- The fields of the settings in their declared order. -/
def fieldNames : List String :=
  ["maxRetries", "strategy", "delayMs", "delaysMs"]

/-- The settings of a step; `inStep` tells that they stand inside a step. -/
def decoder (inStep : Bool) : Decoder RetryPolicy :=
  Record.read fieldNames fun r =>
    RetryPolicy.mk
      <$> r.orNone "maxRetries" Decoder.halfWord
      <*> r.withDefault "strategy" .exponential (Decoder.choice Backoff.names inStep)
      <*> r.orNone "delayMs" Decoder.word
      <*> r.withDefault "delaysMs" [] (Decoder.list Decoder.word)

/-- A number as a value, or `null`. -/
def natOrNull : Option Nat → Json
  | some n => .nat n
  | none => .null

/-- The settings as a value; waiting times are written only if there are some. -/
def toJson (policy : RetryPolicy) : Json :=
  .obj ([("maxRetries", natOrNull policy.maxRetries), ("strategy", .str policy.strategy.name),
      ("delayMs", natOrNull policy.delay)]
    ++ if policy.delays.isEmpty then [] else [("delaysMs", .arr (policy.delays.map Json.nat))])

end RetryPolicy

end Parley
