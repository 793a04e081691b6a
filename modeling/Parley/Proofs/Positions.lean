import Mathlib
import Parley.Proofs.Agendas
import Parley.Proofs.Libraries

/-!
# Positions in flows

An agenda is the rest of its flow from some position on, with at most one step on
top that has taken the place of the step before that position.  The position is
determined by the agenda: a step that takes the place of another is never that
step again, because it stands below it or has been tried more often.
-/

set_option autoImplicit false

namespace Parley

open Relation (TransGen)

/-! ## Steps that take the place of others -/

namespace Step

/-- The step as if it had not been tried yet. -/
def untried : Step → Step
  | callTool id call onFail => callTool id { call with retryCount := 0 } onFail
  | step => step

/-- How often the step has been tried again. -/
def retries : Step → Nat
  | callTool _ call _ => call.retryCount
  | _ => 0

theorem sizeOf_untried_le (step : Step) : sizeOf step.untried ≤ sizeOf step := by
  cases step with
  | callTool id call onFail =>
      obtain ⟨tool, args, target, retry, retryCount⟩ := call
      simp only [untried, callTool.sizeOf_spec, ToolCall.mk.sizeOf_spec, sizeOf_nat]
      omega
  | _ => exact Nat.le_refl _

/-- What takes the place of a step is a smaller one, or the same tried more often. -/
theorem Yields.less {step next : Step} (h : step.Yields next) :
    sizeOf next.untried < sizeOf step.untried ∨
      next.untried = step.untried ∧ step.retries < next.retries := by
  have hnext := sizeOf_untried_le next
  cases h with
  | @branch id subject key branches next hmem =>
      have hbranch := List.sizeOf_lt_of_mem hmem
      simp only [Prod.mk.sizeOf_spec] at hbranch
      refine .inl (Nat.lt_of_le_of_lt hnext ?_)
      simp only [untried, switch.sizeOf_spec]
      omega
  | @choice id guard branches next hmem =>
      have hbranch := List.sizeOf_lt_of_mem hmem
      simp only [Prod.mk.sizeOf_spec] at hbranch
      refine .inl (Nat.lt_of_le_of_lt hnext ?_)
      simp only [untried, choose.sizeOf_spec]
      omega
  | retry => exact .inr ⟨rfl, Nat.lt_succ_self _⟩
  | handler =>
      refine .inl (Nat.lt_of_le_of_lt hnext ?_)
      simp only [untried, callTool.sizeOf_spec, Option.some.sizeOf_spec]
      omega

theorem less_of_transGen {step next : Step} (h : TransGen Yields step next) :
    sizeOf next.untried < sizeOf step.untried ∨
      next.untried = step.untried ∧ step.retries < next.retries := by
  induction h with
  | single hfirst => exact hfirst.less
  | tail hfirst hlast ih =>
      rcases ih, hlast.less with ⟨hbelow | ⟨hsame, hmore⟩, hbelow' | ⟨hsame', hmore'⟩⟩
      · exact .inl (Nat.lt_trans hbelow' hbelow)
      · exact .inl (hsame' ▸ hbelow)
      · exact .inl (hsame ▸ hbelow')
      · exact .inr ⟨hsame'.trans hsame, Nat.lt_trans hmore hmore'⟩

/-- A step never takes its own place. -/
theorem not_transGen_self (step : Step) : ¬TransGen Yields step step := by
  intro h
  rcases less_of_transGen h with hsmaller | ⟨-, hmore⟩
  · exact Nat.lt_irrefl _ hsmaller
  · exact Nat.lt_irrefl _ hmore

end Step

/-! ## Positions -/

/-- The steps are those of the flow from the position on, or one more that has taken the place of
the step before the position. -/
inductive Definition.Position (flow : Definition) : Nat → List Step → Prop where
  | rest (position : Nat) (hposition : position ≤ flow.steps.length) :
      Position flow position (flow.steps.drop position)
  | extra (position : Nat) (origin step : Step) (horigin : flow.steps[position]? = some origin)
      (hyields : TransGen Step.Yields origin step) :
      Position flow (position + 1) (step :: flow.steps.drop (position + 1))

namespace Definition.Position

variable {flow : Definition} {steps : List Step} {i j : Nat}

/-- A step on top keeps the steps from being the rest of the flow from the step that it replaces. -/
theorem rest_ne_extra {position : Nat} {origin step : Step}
    (horigin : flow.steps[position]? = some origin) (hyields : TransGen Step.Yields origin step) :
    flow.steps.drop position ≠ step :: flow.steps.drop (position + 1) := by
  intro heq
  obtain ⟨hlt, hget⟩ := List.getElem?_eq_some_iff.1 horigin
  rw [List.drop_eq_getElem_cons hlt, hget] at heq
  cases (List.cons.inj heq).1
  exact Step.not_transGen_self origin hyields

/-- Steps stand at one position only. -/
theorem unique (hi : flow.Position i steps) (hj : flow.Position j steps) : i = j := by
  have hlength : ∀ {position : Nat} {origin : Step}, flow.steps[position]? = some origin →
      position < flow.steps.length := fun h => (List.getElem?_eq_some_iff.1 h).1
  cases hi with
  | rest _ hi =>
      generalize hsteps : flow.steps.drop i = steps at hj
      cases hj with
      | rest _ hj =>
          have hlengths := congrArg List.length hsteps
          simp only [List.length_drop] at hlengths
          omega
      | extra position origin step horigin hyields =>
          have hlt := hlength horigin
          have hlengths := congrArg List.length hsteps
          simp only [List.length_drop, List.length_cons] at hlengths
          have hsame : i = position := by omega
          subst hsame
          exact absurd hsteps (rest_ne_extra horigin hyields)
  | extra position origin step horigin hyields =>
      have hlt := hlength horigin
      generalize hsteps : step :: flow.steps.drop (position + 1) = steps at hj
      cases hj with
      | rest _ hj =>
          have hlengths := congrArg List.length hsteps
          simp only [List.length_drop, List.length_cons] at hlengths
          have hsame : j = position := by omega
          subst hsame
          exact absurd hsteps.symm (rest_ne_extra horigin hyields)
      | extra other origin' step' horigin' hyields' =>
          have hlt' := hlength horigin'
          have hlengths := congrArg List.length hsteps
          simp only [List.length_drop, List.length_cons] at hlengths
          omega

/-- A flow that has just been started stands at its beginning. -/
theorem start (flow : Definition) : flow.Position 0 flow.steps :=
  .rest 0 (Nat.zero_le _)

/-- When the next step is done or another one takes its place, the position stays or moves on by
one. -/
theorem advance {step : Step} {later : List Step} (h : flow.Position i (step :: later))
    {pushed : Option Step} (hpushed : ∀ next ∈ pushed, step.Yields next) :
    ∃ j, flow.Position j (pushed.toList ++ later) ∧ i ≤ j ∧ j ≤ i + 1 := by
  generalize hsteps : step :: later = steps at h
  cases h with
  | rest _ hi =>
      -- the step is one of the flow itself, so the position moves on
      have hlt : i < flow.steps.length := by
        have hlengths := congrArg List.length hsteps
        simp only [List.length_drop, List.length_cons] at hlengths
        omega
      rw [List.drop_eq_getElem_cons hlt] at hsteps
      obtain ⟨rfl, rfl⟩ := List.cons.inj hsteps
      refine ⟨i + 1, ?_, Nat.le_succ i, Nat.le_refl _⟩
      cases pushed with
      | none => exact .rest (i + 1) hlt
      | some next =>
          have hyields := TransGen.single (hpushed next rfl)
          exact .extra i _ next (List.getElem?_eq_getElem hlt) hyields
  | extra position origin other horigin hyields =>
      -- the step has taken the place of one of the flow, so the position stays
      obtain ⟨rfl, rfl⟩ := List.cons.inj hsteps
      have hlt : position < flow.steps.length := (List.getElem?_eq_some_iff.1 horigin).1
      refine ⟨position + 1, ?_, Nat.le_refl _, Nat.le_succ _⟩
      cases pushed with
      | none => exact .rest (position + 1) hlt
      | some next => exact .extra position origin next horigin (hyields.tail (hpushed next rfl))

end Definition.Position

end Parley
