import Mathlib
import Parley.Tool.Retry

/-!
# How long and how often a call is tried again

Waiting times are computed in words that hold at their largest value.  The limit
of half a minute is far below that value, so what is lost in the words would be cut
off by the limit anyway, and every wait is the exact number up to the limit.  The
failures of one call are answered by as many retries as the settings allow, and by
giving up from then on.
-/

set_option autoImplicit false

namespace Parley

namespace Retry

/-- Up to a limit a factor only counts up to that limit, or to any higher one. -/
theorem min_mul_min {limit cap : Nat} (h : limit ≤ cap) (a b : Nat) :
    min (a * min b cap) limit = min (a * b) limit := by
  by_cases hfits : b ≤ cap
  · rw [min_eq_left hfits]
  · rw [min_eq_right (Nat.le_of_not_le hfits)]
    rcases Nat.eq_zero_or_pos a with rfl | hpos
    · rw [Nat.zero_mul, Nat.zero_mul]
    · have hcap : cap ≤ a * cap := Nat.le_mul_of_pos_left cap hpos
      have hexact : a * cap ≤ a * b := Nat.mul_le_mul_left a (Nat.le_of_not_le hfits)
      omega

theorem longest_le_wordLimit : longest ≤ wordLimit := by
  decide

theorem min_saturatingMul (a b : Nat) : min (saturatingMul a b) longest = min (a * b) longest := by
  have hbelow := longest_le_wordLimit
  unfold saturatingMul
  omega

theorem saturatingPow2_eq (n : Nat) : saturatingPow2 n = min (2 ^ n) wordLimit := by
  unfold saturatingPow2
  by_cases hlarge : 64 ≤ n
  · have hword : wordLimit ≤ 2 ^ n :=
      calc wordLimit ≤ 2 ^ 64 := by decide
        _ ≤ 2 ^ n := Nat.pow_le_pow_right Nat.zero_lt_two hlarge
    rw [if_pos hlarge, min_eq_right hword]
  · have hfits : 2 ^ n ≤ wordLimit :=
      calc 2 ^ n ≤ 2 ^ 63 := Nat.pow_le_pow_right Nat.zero_lt_two (by omega)
        _ ≤ wordLimit := by decide
    rw [if_neg hlarge, min_eq_left hfits]
    rfl

theorem exponential_eq (base retries : Nat) :
    exponential base retries = min (base * 2 ^ retries) longest := by
  rw [exponential, min_saturatingMul, saturatingPow2_eq, min_mul_min longest_le_wordLimit]

/-! ## Plans -/

/-- What the settings of a step say about trying again, with the defaults filled in. -/
structure Plan where
  /-- How often to try again. -/
  most : Nat
  strategy : Backoff
  /-- The base of the waiting time. -/
  base : Nat
  /-- The waiting times of the manual strategy. -/
  listed : List Nat

/-- The plan of a step.  A step without settings of its own doubles the default base. -/
def plan (policy : Option RetryPolicy) (defaults : RetryDefaults) : Plan where
  most := (policy.bind RetryPolicy.maxRetries).getD defaults.maxRetries
  strategy := (policy.map RetryPolicy.strategy).getD .exponential
  base := (policy.bind RetryPolicy.delay).getD defaults.baseDelay
  listed := (policy.map RetryPolicy.delays).getD []

namespace Plan

/-- The wait after so many retries as an exact number, before it is limited.  Beyond the end of its
list the manual strategy stays at the last entry. -/
def exact (plan : Plan) (retries : Nat) : Nat :=
  match plan.strategy with
  | .exponential => plan.base * 2 ^ retries
  | .linear => plan.base * (retries + 1)
  | .manual => plan.listed.getD retries (plan.listed.getLastD plan.base)

/-- The wait after so many retries in milliseconds. -/
def wait (plan : Plan) (retries : Nat) : Nat :=
  min (plan.exact retries) 30000

/-- The answer to a failure after so many retries. -/
def answer (plan : Plan) (retries : Nat) (action : FailureAction) : RetryDecision :=
  if action = .retry ∧ retries < plan.most then .retry (plan.wait retries) else .giveUp

variable {plan : Plan}

theorem answer_eq_retry {retries delay : Nat} {action : FailureAction} :
    plan.answer retries action = .retry delay ↔
      action = .retry ∧ retries < plan.most ∧ delay = plan.wait retries := by
  unfold answer
  by_cases hagain : action = .retry ∧ retries < plan.most
  · rw [if_pos hagain, RetryDecision.retry.injEq]
    exact ⟨fun hdelay => ⟨hagain.1, hagain.2, hdelay.symm⟩, fun h => h.2.2.symm⟩
  · rw [if_neg hagain]
    exact ⟨nofun, fun h => absurd ⟨h.1, h.2.1⟩ hagain⟩

theorem exact_mono (h : plan.strategy ≠ .manual) : Monotone plan.exact := by
  intro fewer more hle
  unfold exact
  cases hstrategy : plan.strategy with
  | exponential => exact Nat.mul_le_mul_left _ (Nat.pow_le_pow_right Nat.zero_lt_two hle)
  | linear => exact Nat.mul_le_mul_left _ (Nat.succ_le_succ hle)
  | manual => exact absurd hstrategy h

/-- Retries first, as many as are allowed, then nothing but giving up. -/
theorem answers_eq (plan : Plan) (count : Nat) :
    (List.range count).map (plan.answer · .retry) =
      (List.range (min count plan.most)).map (fun retries => .retry (plan.wait retries)) ++
        List.replicate (count - plan.most) .giveUp := by
  induction count with
  | zero => simp
  | succ count ih =>
      rw [List.range_succ, List.map_append, ih, List.map_singleton]
      by_cases hroom : count < plan.most
      · have hanswer : plan.answer count .retry = .retry (plan.wait count) :=
          if_pos ⟨rfl, hroom⟩
        have hnone : count - plan.most = 0 ∧ count + 1 - plan.most = 0 := by omega
        have hfewer : min count plan.most = count ∧ min (count + 1) plan.most = count + 1 := by
          omega
        rw [hanswer, hnone.1, hnone.2, hfewer.1, hfewer.2, List.range_succ, List.map_append]
        simp
      · have hanswer : plan.answer count .retry = .giveUp := if_neg fun h => hroom h.2
        have hmore : count + 1 - plan.most = count - plan.most + 1 := by omega
        have hall : min count plan.most = plan.most ∧ min (count + 1) plan.most = plan.most := by
          omega
        rw [hanswer, hmore, hall.1, hall.2, List.replicate_succ', List.append_assoc]

end Plan

end Retry

namespace RetryPolicy

open Retry

theorem getElem?_or_getLast? (delays : List Nat) (retries base : Nat) :
    (delays[retries]?.or delays.getLast?).getD base =
      delays.getD retries (delays.getLastD base) := by
  rw [List.getD_eq_getElem?_getD, List.getLastD_eq_getLast?]
  cases delays[retries]? with
  | some delay => rfl
  | none => rfl

theorem wait_eq (policy : RetryPolicy) (defaults : RetryDefaults) (retries : Nat) :
    policy.wait retries defaults.baseDelay = (plan (some policy) defaults).wait retries := by
  unfold wait Plan.wait Plan.exact plan
  simp only [Option.map_some, Option.getD_some, Option.bind_some]
  cases policy.strategy with
  | exponential =>
      rw [exponential_eq]
      exact min_eq_left (min_le_right _ _)
  | linear => exact min_saturatingMul _ _
  | manual =>
      simp only [getElem?_or_getLast?]
      rfl

theorem decide_eq_answer (policy : Option RetryPolicy) (defaults : RetryDefaults) (retries : Nat)
    (action : FailureAction) :
    decide policy defaults retries action = (plan policy defaults).answer retries action := by
  unfold decide Plan.answer
  cases action with
  | cancel => rfl
  | retry =>
      by_cases hroom : retries < (plan policy defaults).most
      · have hbelow : ¬ (policy.bind maxRetries).getD defaults.maxRetries ≤ retries :=
          Nat.not_le.2 hroom
        simp only [hbelow, hroom, and_self, if_true, if_false]
        cases policy with
        | none => exact congrArg RetryDecision.retry (exponential_eq _ _)
        | some policy => exact congrArg RetryDecision.retry (wait_eq policy defaults retries)
      · have hfull : (policy.bind maxRetries).getD defaults.maxRetries ≤ retries :=
          Nat.le_of_not_lt hroom
        simp only [hfull, hroom, and_false, if_true, if_false]

/-- A failure is answered by a retry exactly if it may be tried again and fewer retries were made
than the settings allow; the delay is then the exact number, up to half a minute.  It never
decreases with the retries unless the delays are listed.  The failures of one call are answered by
exactly as many retries as are allowed, and by giving up from then on. -/
theorem retries_exact (policy : Option RetryPolicy) (defaults : RetryDefaults) :
    (∀ retries action delay,
      decide policy defaults retries action = .retry delay ↔
        action = .retry ∧ retries < (plan policy defaults).most ∧
          delay = min ((plan policy defaults).exact retries) 30000) ∧
    (∀ fewer more action shorter longer, (plan policy defaults).strategy ≠ .manual →
      fewer ≤ more →
      decide policy defaults fewer action = .retry shorter →
      decide policy defaults more action = .retry longer → shorter ≤ longer) ∧
    ∀ count, (List.range count).map (decide policy defaults · .retry) =
      (List.range (min count (plan policy defaults).most)).map
          (fun retries => .retry (min ((plan policy defaults).exact retries) 30000)) ++
        List.replicate (count - (plan policy defaults).most) .giveUp := by
  simp only [decide_eq_answer]
  refine ⟨fun retries action delay => Plan.answer_eq_retry, ?_, Plan.answers_eq _⟩
  intro fewer more action shorter longer hstrategy hle hfewer hmore
  obtain ⟨-, -, rfl⟩ := Plan.answer_eq_retry.1 hfewer
  obtain ⟨-, -, rfl⟩ := Plan.answer_eq_retry.1 hmore
  exact min_le_min_right 30000 (Plan.exact_mono hstrategy hle)

/-- With a base of three milliseconds the wait after two retries is exact, and after seventy, where
the power of two does not fit a word, it is the longest one. -/
theorem retries_exact_of_three :
    decide none ⟨100, 3⟩ 2 .retry = .retry 12 ∧ decide none ⟨100, 3⟩ 70 .retry = .retry 30000 ∧
      12 ≤ 30000 := by
  obtain ⟨hretry, hmono, -⟩ := retries_exact none ⟨100, 3⟩
  have hshort : decide none ⟨100, 3⟩ 2 .retry = .retry 12 := (hretry _ _ _).2 (by decide)
  have hlong : decide none ⟨100, 3⟩ 70 .retry = .retry 30000 := (hretry _ _ _).2 (by decide)
  exact ⟨hshort, hlong, hmono 2 70 .retry 12 30000 (by decide) (by decide) hshort hlong⟩

end RetryPolicy

end Parley
