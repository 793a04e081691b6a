import Parley.Proofs.Attempts

/-!
# Calls that touch money

A call whose tool or flow goes by a financial name is never tried again.  What
counts is the reference that the step makes: a tool may have a financial name and
be called by an id that does not show it, and then it is tried again like any other.
-/

set_option autoImplicit false

namespace Parley

/-- A call is told to be financial by the name of its flow, by its reference to the tool, or by the
name of the tool if that is the reference. -/
def ToolCall.IsFinancial (call : ToolCall) (flow : String) (tool : Tool) : Prop :=
  isFinancial flow = true ∨ isFinancial call.tool = true ∨
    call.tool = tool.name ∧ isFinancial tool.name = true

namespace ToolCall

variable {settings : Settings} {call : ToolCall} {flow : String} {tool : Tool}

/-- No failure of a financial call may be tried again. -/
theorem IsFinancial.actionOn (h : call.IsFinancial flow tool) (failure : ToolFailure) :
    call.actionOn flow failure = .cancel := by
  cases haction : call.actionOn flow failure with
  | cancel => rfl
  | retry =>
      obtain ⟨hreference, hflow, -⟩ := actionOn_eq_retry haction
      rcases h with hmoney | hmoney | ⟨hname, hmoney⟩
      · cases hflow.symm.trans hmoney
      · cases hreference.symm.trans hmoney
      · rw [hname] at hreference
        cases hreference.symm.trans hmoney

/-- The first attempt of a financial call is the last one. -/
theorem IsFinancial.status (h : call.IsFinancial flow tool) (result : Except ToolFailure Json) :
    call.status settings flow result ≠ .retrying := by
  intro hagain
  obtain ⟨failure, -, haction, -⟩ := status_eq_retrying.1 hagain
  rw [h.actionOn failure] at haction
  cases haction

end ToolCall

namespace Engine

variable {engine : Engine} {session : Session} {exchange : Exchange} {turn : Turn} {frame : Frame}
  {id : String} {call : ToolCall} {onFail : Option Step} {tool : Tool}

/-- A financial call makes one attempt, whatever the settings, the model and the tool do: the tool is
invoked at most once before the call is off the steps of its frame. -/
theorem financial_calls_once (h : engine.Reachable session)
    (hturn : turn ∈ engine.trail session exchange)
    (htask : turn.task engine = .dispatch frame (.callTool id call onFail))
    (htool : engine.registry.get? call.tool = some tool)
    (hmoney : call.IsFinancial frame.flowName tool) :
    ∃ last made records left after,
      Turn.CallCourse engine id onFail tool call frame turn [] last made records left after ∧
      after ∈ engine.trail session exchange ∧ made.length ≤ 1 := by
  have horder := trail_inOrder h.inOrder exchange hturn
  obtain ⟨last, left, after, hattempt⟩ := Turn.exists_attempt horder htask htool
  have htries : Turn.Tries engine id onFail tool call frame turn [] last left after :=
    .last hattempt (hmoney.status last)
  obtain ⟨made, records, hcourse⟩ := htries.course
  exact ⟨last, made, records, left, after, hcourse, mem_trail_of_tries hturn htries,
    hcourse.made_le⟩

end Engine

namespace Kiosk

/-- In a flow with a financial name the payment is not tried again after the network was down. -/
theorem payment_once :
    ∃ turn frame id call onFail last made records left after,
      turn ∈ (till "Account" "t-1").trail ((till "Account" "t-1").startSession "guest" "kiosk")
        (guest "Account") ∧
      Turn.CallCourse (till "Account" "t-1") id onFail cashier call frame turn [] last made records
        left after ∧ made.length ≤ 1 := by
  have hcalls : (((till "Account" "t-1").trail
      ((till "Account" "t-1").startSession "guest" "kiosk") (guest "Account")).any fun turn =>
        (turn.task (till "Account" "t-1")).call?.any fun (frame, _, call, _) =>
          call.tool = "t-1" && frame.flowName = "Account") = true := by decide +kernel
  obtain ⟨turn, hturn, hcall⟩ := List.any_eq_true.1 hcalls
  obtain ⟨⟨frame, id, call, onFail⟩, hdispatched, hnames⟩ := (Option.any_eq_true _ _).1 hcall
  simp only [Bool.and_eq_true, decide_eq_true_eq] at hnames
  obtain ⟨hreference, hflow⟩ := hnames
  have hfound : (till "Account" "t-1").registry.get? call.tool = some cashier := by
    rw [hreference]
    rfl
  have hmoney : call.IsFinancial frame.flowName cashier := by
    rw [hflow]
    exact .inl (by decide)
  obtain ⟨last, made, records, left, after, hcourse, -, hbound⟩ :=
    Engine.financial_calls_once (.start "guest" "kiosk") hturn
      (Turn.Task.call?_eq_some.1 hdispatched) hfound hmoney
  exact ⟨turn, frame, id, call, onFail, last, made, records, left, after, hturn, hcourse, hbound⟩

/-- The tool has a financial name, but the step calls it by its id: after the network was down it is
invoked once more. -/
theorem payment_repeated :
    ¬∀ (engine : Engine) (session : Session) (exchange : Exchange) (turn after : Turn)
      (frame left : Frame) (id : String) (call : ToolCall) (onFail : Option Step) (tool : Tool)
      (failures : List ToolFailure) (last : Except ToolFailure Json),
      engine.Reachable session → turn ∈ engine.trail session exchange →
      engine.registry.get? call.tool = some tool →
      (isFinancial tool.name = true ∨ isFinancial call.tool = true ∨
        isFinancial frame.flowName = true) →
      Turn.Tries engine id onFail tool call frame turn failures last left after →
      after.journal.invoked.length ≤ turn.journal.invoked.length + 1 := by
  intro hclaim
  have hcalls : (((till "Shop" "t-1").trail
      ((till "Shop" "t-1").startSession "guest" "kiosk") (guest "Shop")).any fun turn =>
        turn.taken = 0 && turn.journal.invoked.isEmpty && turn.session.levels.pop.1.top?.isNone &&
        (turn.task (till "Shop" "t-1")).call?.any fun (frame, _, call, onFail) =>
          call.tool = "t-1" && onFail.isNone && frame.steps.tail.isEmpty &&
            call.allowance (till "Shop" "t-1").settings < (till "Shop" "t-1").settings.maxSteps) =
      true := by decide +kernel
  -- after the first attempt a step is left, and after every later one the tool was invoked twice
  have hrounds : ((till "Shop" "t-1").trail
      ((till "Shop" "t-1").startSession "guest" "kiosk") (guest "Shop")).all (fun turn =>
        (turn.taken != 1 || turn.session.levels.top?.any fun frame => !frame.steps.isEmpty) &&
        (turn.taken < 2 || turn.journal.invoked.length = 2)) = true := by decide +kernel
  obtain ⟨turn, hturn, hcall⟩ := List.any_eq_true.1 hcalls
  simp only [Bool.and_eq_true, decide_eq_true_eq, List.isEmpty_iff, Option.isNone_iff_eq_none]
    at hcall
  obtain ⟨⟨⟨htaken, hfresh⟩, halone⟩, hcall⟩ := hcall
  obtain ⟨⟨frame, id, call, onFail⟩, hdispatched, hnames⟩ := (Option.any_eq_true _ _).1 hcall
  simp only [Bool.and_eq_true, decide_eq_true_eq, List.isEmpty_iff, Option.isNone_iff_eq_none]
    at hnames
  obtain ⟨⟨⟨hreference, rfl⟩, hsteps⟩, hroom⟩ := hnames
  have hfound : (till "Shop" "t-1").registry.get? call.tool = some cashier := by
    rw [hreference]
    rfl
  have hstart : (till "Shop" "t-1").Reachable
      ((till "Shop" "t-1").startSession "guest" "kiosk") := .start "guest" "kiosk"
  obtain ⟨failures, last, left, after, htries⟩ :=
    Turn.exists_tries (Engine.trail_inOrder hstart.inOrder (guest "Shop") hturn)
      (Turn.Task.call?_eq_some.1 hdispatched) hfound (by omega)
  have hfew := hclaim _ _ _ _ _ _ _ _ _ _ _ _ _ hstart hturn hfound (.inl (by decide)) htries
  obtain ⟨made, records, hcourse⟩ := htries.course
  have hround := List.all_eq_true.1 hrounds after (Engine.mem_trail_of_tries hturn htries)
  have hlater := htries.taken
  simp only [Bool.and_eq_true, Bool.or_eq_true, bne_iff_ne, decide_eq_true_eq] at hround
  obtain ⟨hfirst, hsecond⟩ := hround
  cases failures with
  | nil =>
      have hleft : after.session.levels.top?.any (fun frame => !frame.steps.isEmpty) = true :=
        hfirst.resolve_left fun hnot => hnot (by rw [hlater, htaken]; rfl)
      cases last with
      | ok value =>
          obtain ⟨hnone, hlevels⟩ := hcourse.succeeded value rfl
          obtain ⟨callers, suspended, hbefore⟩ :=
            Levels.top?_eq_some.1 (Turn.task_eq_dispatch.1 htries.task).1
          rw [hlevels, hbefore] at hleft
          simp [Levels.modifyTop, Levels.top?, hnone, hsteps] at hleft
      | error failure =>
          rw [hcourse.abandoned failure rfl rfl, halone] at hleft
          cases hleft
  | cons failure failures =>
      have htwice := hsecond.resolve_left (by rw [hlater, List.length_cons]; omega)
      rw [htwice, hfresh] at hfew
      revert hfew
      decide

end Kiosk

end Parley
