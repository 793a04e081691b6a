import Parley.Proofs.WrittenSteps

/-!
# The first step that offends

The steps of a flow stand in a fixed order: one after another, and behind a step
those inside it, which are its branches or its handler.  A step offends if it
names none of the seven kinds, or if it has to branch and has no map of branches.
The outline of a flow is in order exactly if no step offends; otherwise it is the
first step that does which is reported.
-/

set_option autoImplicit false

namespace Parley

namespace Outline

/-- The text under which a step names its kind. -/
def typeOf? (step : Json) : Option String :=
  (step.get? "type").bind Json.asStr?

/-- The kind of a step, if it names one of the seven. -/
def kind? (step : Json) : Option StepKind :=
  (typeOf? step).bind StepKind.ofName?

/-- The map of branches of a step. -/
def branches? (step : Json) : Option Fields :=
  (step.get? "branches").bind Json.asObj?

/-- The steps directly inside a step: its branches in order, or its handler. -/
def inside (step : Json) : List Json :=
  match kind? step with
  | some .switch | some .choose => ((branches? step).getD []).map Prod.snd
  | some .callTool => (step.get? "onFail").toList
  | _ => []

theorem sizeOf_lt_of_get? {key : String} {value inner : Json} (h : value.get? key = some inner) :
    sizeOf inner < sizeOf value := by
  cases value with
  | obj fields =>
      have hmem := List.sizeOf_lt_of_mem (Table.mem_of_get? h)
      simp only [Prod.mk.sizeOf_spec] at hmem
      simp only [Json.obj.sizeOf_spec]
      omega
  | _ => cases h

theorem get?_of_branches? {step : Json} {entries : Fields} (h : branches? step = some entries) :
    step.get? "branches" = some (.obj entries) := by
  obtain ⟨value, hfound, hmap⟩ := Option.bind_eq_some_iff.1 h
  cases value with
  | obj fields =>
      cases hmap
      exact hfound
  | _ => cases hmap

theorem sizeOf_lt_of_mem_branches {step inner : Json}
    (h : inner ∈ ((branches? step).getD []).map Prod.snd) : sizeOf inner < sizeOf step := by
  obtain ⟨⟨key, value⟩, hentry, rfl⟩ := List.mem_map.1 h
  cases hmap : branches? step with
  | none => simp [hmap] at hentry
  | some entries =>
      rw [hmap, Option.getD_some] at hentry
      have houter := sizeOf_lt_of_get? (get?_of_branches? hmap)
      have hinner := List.sizeOf_lt_of_mem hentry
      simp only [Prod.mk.sizeOf_spec] at hinner
      simp only [Json.obj.sizeOf_spec] at houter
      show sizeOf value < _
      omega

theorem sizeOf_lt_of_mem_inside {step inner : Json} (h : inner ∈ inside step) :
    sizeOf inner < sizeOf step := by
  unfold inside at h
  split at h
  · exact sizeOf_lt_of_mem_branches h
  · exact sizeOf_lt_of_mem_branches h
  · exact sizeOf_lt_of_get? (Option.mem_toList.1 h)
  · cases h

/-- What holds of a step if it holds of the steps inside it holds of every step. -/
theorem inside_induction {motive : Json → Prop}
    (h : ∀ step, (∀ inner ∈ inside step, motive inner) → motive step) (step : Json) :
    motive step :=
  h step fun inner _ => inside_induction h inner
termination_by sizeOf step
decreasing_by exact sizeOf_lt_of_mem_inside ‹_›

/-- A step, and behind it the steps inside it, at any depth. -/
def stepsOf (step : Json) : List Json :=
  step :: (inside step).attach.flatMap fun inner => stepsOf inner.1
termination_by sizeOf step
decreasing_by exact sizeOf_lt_of_mem_inside inner.2

theorem stepsOf_eq (step : Json) : stepsOf step = step :: (inside step).flatMap stepsOf := by
  rw [stepsOf, List.flatMap_subtype (fun inner _ => rfl), List.unattach_attach]

/-- The steps of a flow that stand in no other step. -/
def outermost (flow : Json) : List Json :=
  ((flow.get? "steps").bind Json.asArr?).getD []

/-- All steps of a flow in depth-first order. -/
def stepsOfFlow (flow : Json) : List Json :=
  (outermost flow).flatMap stepsOf

/-- The step names none of the seven kinds, or has to branch and has no map of branches. -/
def offends (step : Json) : Bool :=
  match kind? step with
  | some .switch | some .choose => (branches? step).isNone
  | some _ => false
  | none => true

/-- The check of some steps tells of the first one that offends: its type if it names one that does
not exist, and a fault of its shape otherwise. -/
inductive Reports (flow : String) : Except DefinitionError Unit → Option Json → Prop where
  | inOrder : Reports flow (.ok ()) none
  | unknownType {step : Json} {name : String} (htype : typeOf? step = some name)
      (hunknown : StepKind.ofName? name = none) :
      Reports flow (.error (.unknownStepType flow name)) (some step)
  | misshapen {step : Json} {cause : Malformation}
      (hshape : typeOf? step = none ∨ kind? step ≠ none) :
      Reports flow (.error (.malformed flow cause)) (some step)

section Reports

variable {flow : String} {step : Json} {kind : StepKind} {fields : List (String × Json)}

/-- One check after another tells of the first step that offends in both. -/
theorem Reports.andThen {first second : Except DefinitionError Unit} {early late : Option Json} :
    Reports flow first early → Reports flow second late →
      Reports flow (match first with
        | .error e => .error e
        | .ok () => second) (early.or late) := by
  intro hfirst hsecond
  cases hfirst with
  | inOrder => exact hsecond
  | unknownType htype hunknown => exact .unknownType htype hunknown
  | misshapen hshape => exact .misshapen hshape

theorem kindOf_of_kind? (h : kind? step = some kind) : kindOf flow step = .ok kind := by
  obtain ⟨name, htype, hname⟩ := Option.bind_eq_some_iff.1 h
  unfold typeOf? at htype
  simp only [kindOf, htype, hname]

/-- A step without a kind is reported as it stands. -/
theorem reports_kindOf (h : kind? step = none) :
    ∃ e, kindOf flow step = .error e ∧ Reports flow (.error e) (some step) := by
  cases htype : typeOf? step with
  | none =>
      refine ⟨.malformed flow .stepWithoutType, ?_, .misshapen (.inl htype)⟩
      unfold typeOf? at htype
      simp only [kindOf, htype]
  | some name =>
      have hunknown : StepKind.ofName? name = none := by simpa [kind?, htype] using h
      refine ⟨.unknownStepType flow name, ?_, .unknownType htype hunknown⟩
      unfold typeOf? at htype
      simp only [kindOf, htype, hunknown]

theorem reports_of_kind?_eq_none (h : kind? step = none) :
    Reports flow (checkStep flow step) ((stepsOf step).find? offends) := by
  obtain ⟨e, he, hreports⟩ : ∃ e, kindOf flow step = .error e ∧
      Reports flow (.error e) (some step) := reports_kindOf h
  have hcheck : checkStep flow step = .error e := by
    rw [checkStep.eq_def, he]
  have hoffends : offends step = true := by
    simp only [offends, h]
  rw [hcheck, stepsOf_eq, List.find?_cons_of_pos hoffends]
  exact hreports

theorem checkBranchesIn_eq (kind : StepKind) (fields : List (String × Json)) :
    checkBranchesIn flow kind fields = (Table.get? "branches" fields).elim
      (.error (.malformed flow (.branchesNotMap kind))) (checkBranchMap flow kind) := by
  induction fields with
  | nil => simp [checkBranchesIn, Table.get?]
  | cons field fields ih =>
      obtain ⟨key, value⟩ := field
      unfold checkBranchesIn Table.get?
      split
      · rfl
      · exact ih

/-- Without a map of branches it is the shape that is reported. -/
theorem checkBranchesIn_eq_error (h : branches? (.obj fields) = none) :
    checkBranchesIn flow kind fields = .error (.malformed flow (.branchesNotMap kind)) := by
  unfold branches? Json.get? at h
  rw [checkBranchesIn_eq]
  cases hfound : Table.get? "branches" fields with
  | none => rfl
  | some value =>
      cases value with
      | obj entries => simp [hfound, Json.asObj?] at h
      | _ => rfl

theorem checkBranchesIn_of_branches? {entries : Fields} (h : branches? (.obj fields) = some entries) :
    checkBranchesIn flow kind fields = checkBranches flow entries := by
  have hfound : Table.get? "branches" fields = some (.obj entries) := get?_of_branches? h
  rw [checkBranchesIn_eq, hfound]
  exact checkBranchMap.eq_1 flow kind entries

/-- The check of branches tells of the first step that offends if the checks of the branches do. -/
theorem reports_checkBranches {entries : List (String × Json)}
    (heach : ∀ entry ∈ entries,
      Reports flow (checkStep flow entry.2) ((stepsOf entry.2).find? offends)) :
    Reports flow (checkBranches flow entries)
      (((entries.map Prod.snd).flatMap stepsOf).find? offends) := by
  induction entries with
  | nil =>
      rw [checkBranches]
      exact .inOrder
  | cons entry entries ih =>
      obtain ⟨key, value⟩ := entry
      obtain ⟨hfirst, hothers⟩ := List.forall_mem_cons.1 heach
      rw [checkBranches, List.map_cons, List.flatMap_cons, List.find?_append]
      split
      · -- a list of steps names no kind, so it is the first step that offends
        rename_i hlist
        cases value with
        | arr items =>
            rw [stepsOf_eq]
            exact .misshapen (.inl rfl)
        | _ => cases hlist
      · exact hfirst.andThen (ih hothers)

/-- The check of a step that has to branch tells of the first step that offends. -/
theorem reports_checkBranchesIn (hkind : kind? (.obj fields) = some kind)
    (hoffends : offends (.obj fields) = (branches? (.obj fields)).isNone)
    (hinside : inside (.obj fields) = ((branches? (.obj fields)).getD []).map Prod.snd)
    (heach : ∀ inner ∈ inside (.obj fields),
      Reports flow (checkStep flow inner) ((stepsOf inner).find? offends)) :
    Reports flow (checkBranchesIn flow kind fields) ((stepsOf (.obj fields)).find? offends) := by
  rw [hinside] at heach
  rw [stepsOf_eq, hinside]
  cases hmap : branches? (.obj fields) with
  | none =>
      rw [hmap] at hoffends
      rw [checkBranchesIn_eq_error hmap, List.find?_cons_of_pos hoffends]
      exact .misshapen (.inr (by simp [hkind]))
  | some entries =>
      rw [hmap, Option.getD_some, List.forall_mem_map] at heach
      rw [hmap] at hoffends
      rw [checkBranchesIn_of_branches? hmap, List.find?_cons_of_neg (by simp [hoffends])]
      exact reports_checkBranches heach

/-- The check of a step tells of the first step that offends in it. -/
theorem reports_checkStep (flow : String) (step : Json) :
    Reports flow (checkStep flow step) ((stepsOf step).find? offends) := by
  induction step using inside_induction with
  | h step ih =>
    cases hkind : kind? step with
    | none => exact reports_of_kind?_eq_none hkind
    | some kind =>
        cases step with
        | obj fields =>
            rw [checkStep.eq_def, kindOf_of_kind? hkind]
            cases kind with
            | switch | choose =>
                apply reports_checkBranchesIn hkind _ _ ih
                · simp only [offends, hkind]
                · simp only [inside, hkind]
            | callTool =>
                rw [stepsOf_eq, List.find?_cons_of_neg (by simp [offends, hkind])]
                simp only [inside, hkind, Json.get?] at ih ⊢
                rw [checkHandlerIn_eq]
                cases hfound : Table.get? "onFail" fields with
                | none => exact .inOrder
                | some value =>
                    rw [hfound] at ih
                    simpa using ih value (by simp)
            | say | ask | set | callFlow =>
                rw [stepsOf_eq, List.find?_cons_of_neg (by simp [offends, hkind])]
                simp only [inside, hkind]
                exact .inOrder
        | _ => cases hkind

theorem reports_checkSteps (flow : String) (steps : List Json) :
    Reports flow (checkSteps flow steps) ((steps.flatMap stepsOf).find? offends) := by
  induction steps with
  | nil => exact .inOrder
  | cons step steps ih =>
      rw [checkSteps, List.flatMap_cons, List.find?_append]
      exact (reports_checkStep flow step).andThen ih

end Reports

/-- The outline of a flow is in order exactly if its steps are a list and none of them, at any
depth, offends. -/
theorem checkFlow_eq_ok_iff {flow : Json} : checkFlow flow = .ok () ↔
    ((flow.get? "steps").bind Json.asArr?).isSome = true ∧
      ∀ step ∈ stepsOfFlow flow, offends step = false := by
  unfold checkFlow stepsOfFlow outermost
  cases hsteps : (flow.get? "steps").bind Json.asArr? with
  | none => simp
  | some steps =>
      have hreports := reports_checkSteps (nameOf flow) steps
      simp only [Option.isSome_some, true_and, Option.getD_some]
      cases hfirst : (steps.flatMap stepsOf).find? offends with
      | none =>
          rw [hfirst] at hreports
          cases hcheck : checkSteps (nameOf flow) steps with
          | error e => rw [hcheck] at hreports; cases hreports
          | ok =>
              exact iff_of_true rfl fun step hstep => by
                simpa using List.find?_eq_none.1 hfirst step hstep
      | some step =>
          rw [hfirst] at hreports
          refine iff_of_false ?_ fun hnone => ?_
          · intro hcheck
            rw [hcheck] at hreports
            cases hreports
          · have hoffends := List.find?_some hfirst
            rw [hnone step (List.mem_of_find?_eq_some hfirst)] at hoffends
            cases hoffends

/-- The check of a flow reports a type that does not exist exactly if the first step that offends
names it. -/
theorem checkFlow_eq_unknown_iff {flow : Json} {name type : String} :
    checkFlow flow = .error (.unknownStepType name type) ↔ name = nameOf flow ∧
      ∃ step, (stepsOfFlow flow).find? offends = some step ∧ typeOf? step = some type ∧
        StepKind.ofName? type = none := by
  unfold checkFlow stepsOfFlow outermost
  cases hsteps : (flow.get? "steps").bind Json.asArr? with
  | none => simp
  | some steps =>
      have hreports := reports_checkSteps (nameOf flow) steps
      simp only [Option.getD_some]
      generalize checkSteps (nameOf flow) steps = result at hreports
      generalize (steps.flatMap stepsOf).find? offends = first at hreports
      cases hreports with
      | inOrder => simp
      | @unknownType step found htype hunknown =>
          constructor
          · rintro ⟨⟩
            exact ⟨rfl, step, rfl, htype, hunknown⟩
          · rintro ⟨rfl, other, ⟨⟩, hother, -⟩
            rw [htype] at hother
            cases hother
            rfl
      | @misshapen step cause hshape =>
          refine iff_of_false nofun ?_
          rintro ⟨rfl, other, ⟨⟩, hother, hunknown⟩
          rcases hshape with hnone | hkind
          · rw [hnone] at hother
            cases hother
          · exact hkind (by simp [kind?, hother, hunknown])

end Outline

end Parley
