import Parley.Proofs.Agendas
import Parley.Proofs.Libraries

/-!
# References resolve

A library without problems refers to flows and tools that exist.  The check visits
a step with all steps below it, and whatever takes the place of a step stands
below it; so every step that is ever dispatched has passed the check.
-/

set_option autoImplicit false

namespace Parley

namespace References

variable {library : Library} {registry : Registry} {name : String}

/-- Nothing is wrong with the references of a step and of the steps below it. -/
def Resolved (library : Library) (registry : Registry) (step : Step) : Prop :=
  ∃ name, ofStep library registry name step = []

theorem ofBranches_mem {branches : List (String × Step)} {key : String} {next : Step}
    (h : ofBranches library registry name branches = []) (hmem : (key, next) ∈ branches) :
    ofStep library registry name next = [] := by
  induction branches with
  | nil => cases hmem
  | cons branch rest ih =>
      obtain ⟨first, step⟩ := branch
      obtain ⟨hstep, hrest⟩ := List.append_eq_nil_iff.1 h
      rcases List.mem_cons.1 hmem with heq | hlater
      · cases heq
        exact hstep
      · exact ih hrest hlater

theorem ofChoices_mem {branches : List (Guard × Step)} {guard : Guard} {next : Step}
    (h : ofChoices library registry name branches = []) (hmem : (guard, next) ∈ branches) :
    ofStep library registry name next = [] := by
  induction branches with
  | nil => cases hmem
  | cons branch rest ih =>
      obtain ⟨first, step⟩ := branch
      obtain ⟨hstep, hrest⟩ := List.append_eq_nil_iff.1 h
      rcases List.mem_cons.1 hmem with heq | hlater
      · cases heq
        exact hstep
      · exact ih hrest hlater

/-- What takes the place of a step has passed the check with it. -/
theorem Resolved.yields {step next : Step} (h : Resolved library registry step)
    (hyields : step.Yields next) : Resolved library registry next := by
  obtain ⟨name, hname⟩ := h
  refine ⟨name, ?_⟩
  cases hyields with
  | branch hmem =>
      rw [ofStep] at hname
      exact ofBranches_mem hname hmem
  | choice hmem =>
      rw [ofStep] at hname
      exact ofChoices_mem hname hmem
  | retry =>
      -- the check does not look at the count of retries
      rw [ofStep] at hname ⊢
      exact hname
  | handler =>
      rw [ofStep] at hname
      have hhandler := (List.append_eq_nil_iff.1 hname).2
      rwa [ofHandler] at hhandler

theorem Resolved.callFlow {id key : String} {callType : CallType}
    (h : Resolved library registry (.callFlow id key callType)) :
    ∃ flow, library.get? key = some flow := by
  obtain ⟨name, hname⟩ := h
  rw [ofStep] at hname
  cases hfound : library.get? key with
  | none => simp [hfound] at hname
  | some flow => exact ⟨flow, rfl⟩

theorem Resolved.callTool {id : String} {call : ToolCall} {onFail : Option Step}
    (h : Resolved library registry (.callTool id call onFail)) :
    ∃ tool, registry.get? call.tool = some tool := by
  obtain ⟨name, hname⟩ := h
  rw [ofStep] at hname
  have hcall := (List.append_eq_nil_iff.1 hname).1
  cases hfound : registry.get? call.tool with
  | none => simp [hfound] at hcall
  | some tool => exact ⟨tool, rfl⟩

/-- All steps of a flow of a library without problems have passed the check. -/
theorem resolved_of_problems (h : problems library registry = []) {key : String}
    {flow : Definition} (hflow : library.get? key = some flow) :
    ∀ step ∈ flow.steps, Resolved library registry step := by
  intro step hstep
  have hmem : flow ∈ library.flows := Library.mem_of_get? hflow
  have hnone : ofFlow library registry flow = [] := List.flatMap_eq_nil_iff.1 h flow hmem
  have hsteps := (List.append_eq_nil_iff.1 hnone).2
  exact ⟨flow.name, List.flatMap_eq_nil_iff.1 hsteps step hstep⟩

/-- In a library without problems all steps of all agendas have passed the check. -/
theorem resolved_kept (h : problems library registry = []) :
    Agenda.Kept library fun agenda => ∀ step ∈ agenda.steps, Resolved library registry step :=
  Agenda.kept_of_yields (fun _ _ hflow => resolved_of_problems h hflow) fun _ _ hstep hyields =>
    hstep.yields hyields

end References

namespace Engine

variable {engine : Engine} {session : Session}

/-- If the check finds no problem, no step that is ever dispatched hands over to a flow that does
not exist or calls a tool that does not exist. -/
theorem references_resolve (hvalid : References.problems engine.library engine.registry = [])
    (h : engine.Reachable session) (exchange : Exchange) {turn : Turn}
    (hturn : turn ∈ engine.trail session exchange) {frame : Frame} {step : Step}
    (htask : turn.task engine = .dispatch frame step) :
    (∀ id key callType, step = .callFlow id key callType →
        ∃ flow, engine.library.get? key = some flow) ∧
      ∀ id call onFail, step = .callTool id call onFail →
        ∃ tool, engine.registry.get? call.tool = some tool := by
  have hresolved : References.Resolved engine.library engine.registry step :=
    h.dispatched (References.resolved_kept hvalid) hturn htask
  constructor
  · rintro id key callType rfl
    exact hresolved.callFlow
  · rintro id call onFail rfl
    exact hresolved.callTool

end Engine

namespace Kiosk

/-- The check finds nothing wrong at the desk, where a guest who wants to sit inside makes a step
call a tool: it stands in a branch of the flow, and the tool exists. -/
theorem seat_found :
    References.problems desk.library desk.registry = [] ∧
      ∃ turn ∈ desk.trail (deskAfter ["Table"]) (guest "inside"), ∃ frame id call onFail,
        turn.task desk = .dispatch frame (.callTool id call onFail) ∧
          ∃ tool, desk.registry.get? call.tool = some tool := by
  have hvalid : References.problems desk.library desk.registry = [] := by decide +kernel
  have hrounds : ((desk.trail (deskAfter ["Table"]) (guest "inside")).any fun turn =>
      (turn.task desk).step?.any fun step => step.kind == .callTool) = true := by decide +kernel
  obtain ⟨turn, hturn, hcalls⟩ := List.any_eq_true.1 hrounds
  refine ⟨hvalid, turn, hturn, ?_⟩
  cases hstep : (turn.task desk).step? with
  | none => simp [hstep] at hcalls
  | some step =>
      have hkind : step.kind = .callTool := by simpa [hstep] using hcalls
      obtain ⟨frame, htask⟩ := Turn.Task.step?_eq_some.1 hstep
      obtain ⟨-, htools⟩ := Engine.references_resolve hvalid (reachable_deskAfter ["Table"])
        (guest "inside") hturn htask
      cases step with
      | callTool id call onFail => exact ⟨frame, id, call, onFail, htask, htools id call onFail rfl⟩
      | _ => cases hkind

end Kiosk

end Parley
