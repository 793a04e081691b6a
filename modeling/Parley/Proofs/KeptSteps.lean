import Parley.Proofs.OwnFaults

/-!
# Steps that are kept

A flow that is read has the steps of the value that it is read from: at every
level as many, in the same order, of the same kinds and under the same keys.  So
the check of the outline and the decoder visit the same steps.
-/

set_option autoImplicit false

namespace Parley

/-- How steps are arranged in a step: its kind, and the arrangements of the steps directly inside it
in order, each with the key of its branch. -/
inductive Arrangement where
  | node (kind : Option StepKind) (inside : List (String × Arrangement))

/-- The key of a handler. -/
def handlerKey : String :=
  "onFail"

namespace Outline

/-- The key of a branch on a condition as it is written for the guard that it stands for. -/
def guardKey (key : String) : String :=
  (Guard.ofKey? key).elim key Guard.key

/-- The steps directly inside a step with their keys. -/
def keyedInside (step : Json) : List (String × Json) :=
  match kind? step with
  | some .switch => (branches? step).getD []
  | some .choose => ((branches? step).getD []).map (Prod.map guardKey fun step => step)
  | some .callTool => (step.get? handlerKey).toList.map (handlerKey, ·)
  | _ => []

theorem inside_eq (step : Json) : inside step = (keyedInside step).map Prod.snd := by
  unfold inside keyedInside
  cases kind? step with
  | none => rfl
  | some kind => cases kind <;> simp [handlerKey]

/-- How steps are arranged in the value of a step. -/
def arrangement (step : Json) : Arrangement :=
  .node (kind? step) ((keyedInside step).attach.map fun inner => (inner.1.1, arrangement inner.1.2))
termination_by sizeOf step
decreasing_by
  apply sizeOf_lt_of_mem_inside
  rw [inside_eq]
  exact List.mem_map_of_mem inner.2

theorem arrangement_eq (step : Json) : arrangement step =
    .node (kind? step) ((keyedInside step).map (Prod.map (fun key => key) arrangement)) := by
  rw [arrangement, List.map_subtype (g := Prod.map (fun key => key) arrangement) fun _ _ => rfl,
    List.unattach_attach]

end Outline

namespace Step

/-- The steps directly inside a step with their keys. -/
def keyedInside : Step → List (String × Step)
  | .switch _ _ branches => branches
  | .choose _ branches => branches.map (Prod.map Guard.key fun step => step)
  | .callTool _ _ onFail => onFail.toList.map (handlerKey, ·)
  | _ => []

theorem sizeOf_lt_of_mem_keyedInside {step : Step} {inner : String × Step}
    (h : inner ∈ step.keyedInside) : sizeOf inner.2 < sizeOf step := by
  obtain ⟨key, inner⟩ := inner
  cases step with
  | switch id subject branches =>
      have hlt := List.sizeOf_lt_of_mem (show (key, inner) ∈ branches from h)
      simp only [Prod.mk.sizeOf_spec] at hlt
      simp only [Step.switch.sizeOf_spec]
      omega
  | choose id branches =>
      obtain ⟨⟨guard, step⟩, hbranch, heq⟩ := List.mem_map.1 h
      cases heq
      have hlt := List.sizeOf_lt_of_mem hbranch
      simp only [Prod.mk.sizeOf_spec] at hlt
      simp only [Step.choose.sizeOf_spec]
      omega
  | callTool id call onFail =>
      cases onFail with
      | none => cases h
      | some handler =>
          cases List.mem_singleton.1 h
          simp only [Step.callTool.sizeOf_spec, Option.some.sizeOf_spec]
          omega
  | _ => cases h

/-- How steps are arranged in a step. -/
def arrangement (step : Step) : Arrangement :=
  .node (some step.kind)
    (step.keyedInside.attach.map fun inner => (inner.1.1, arrangement inner.1.2))
termination_by sizeOf step
decreasing_by exact sizeOf_lt_of_mem_keyedInside inner.2

theorem arrangement_eq (step : Step) : step.arrangement =
    .node (some step.kind) (step.keyedInside.map (Prod.map (fun key => key) arrangement)) := by
  rw [arrangement, List.map_subtype (g := Prod.map (fun key => key) arrangement) fun _ _ => rfl,
    List.unattach_attach]

end Step

namespace Decoder

/-- A list is decoded item by item, in order. -/
theorem forall₂_of_each {α : Type} {decode : Decoder α} {items : List Json} {as : List α}
    (h : each decode items = .ok as) :
    List.Forall₂ (fun item a => decode item = .ok a) items as := by
  induction items generalizing as with
  | nil =>
      cases h
      exact .nil
  | cons item items ih =>
      unfold each at h
      cases hfirst : decode item with
      | error e => rw [hfirst] at h; cases h
      | ok a =>
          rw [hfirst] at h
          cases hrest : each decode items with
          | error e => rw [hrest] at h; cases h
          | ok others =>
              rw [hrest] at h
              cases h
              exact .cons hfirst (ih hrest)

end Decoder

namespace Outline

open Step (ofRecord ofFields ofJson guarded branchList branchesIn handlerIn)

/-- A step is read from the entry, under its key. -/
def ReadFrom (entry : String × Json) (branch : String × Step) : Prop :=
  entry.1 = branch.1 ∧ ofJson true entry.2 = .ok branch.2

theorem readFrom_of_branchList {entries : List (String × Json)} {steps : List (String × Step)}
    (h : branchList entries = .ok steps) : List.Forall₂ ReadFrom entries steps := by
  rw [branchList_eq_each] at h
  cases heach : Decoder.each (ofJson true) (entries.map Prod.snd) with
  | error e => rw [heach] at h; cases h
  | ok values =>
      rw [heach] at h
      cases h
      have hvalues := List.forall₂_map_left_iff.1 (Decoder.forall₂_of_each heach)
      clear heach
      induction hvalues with
      | nil => exact .nil
      | cons hfirst _ ih => exact .cons ⟨rfl, hfirst⟩ ih

/-- The branches on conditions are those on keys, under the keys of their guards. -/
theorem guardKey_of_guarded {steps : List (String × Step)} {choices : List (Guard × Step)}
    (h : guarded steps = .ok choices) :
    steps.map (Prod.map guardKey fun step => step) = choices.map (Prod.map Guard.key fun step => step) := by
  induction steps generalizing choices with
  | nil =>
      cases h
      rfl
  | cons branch steps ih =>
      obtain ⟨key, step⟩ := branch
      unfold guarded at h
      cases hguard : Guard.ofKey? key with
      | none => rw [hguard] at h; cases h
      | some guard =>
          cases hrest : guarded steps with
          | error e => rw [hguard, hrest] at h; cases h
          | ok others =>
              rw [hguard, hrest] at h
              cases h
              simp [ih hrest, guardKey, hguard]

/-- A handler that does not offend is read as a step. -/
theorem readFrom_handler {fields : List (String × Json)} {onFail : Option Step}
    (hoffends : ∀ inner, Table.get? handlerKey fields = some inner → offends inner = false)
    (h : (Record.settledOrNone handlerKey (handlerIn fields) (Step.recordOf fields)).Reads onFail) :
    List.Forall₂ ReadFrom ((Table.get? handlerKey fields).toList.map (handlerKey, ·))
      (onFail.toList.map (handlerKey, ·)) := by
  have hfind : Table.get? handlerKey (Step.recordOf fields).entries
      = Table.get? handlerKey fields := by
    have hkept := Table.get?_filter (fun key => key ≠ Step.tagKey) handlerKey fields
    rwa [if_pos (by decide)] at hkept
  rw [Step.handlerIn_eq] at h
  change Reading.Reads (Record.settledOrNone _ ((Table.get? handlerKey fields).map _) _) _ at h
  simp only [Record.settledOrNone, Record.find?, hfind] at h
  cases hfound : Table.get? handlerKey fields with
  | none =>
      rw [hfound] at h
      cases h
      exact .nil
  | some inner =>
      rw [hfound] at h
      have hread : Step.handler inner = .ok onFail := Reading.reads_ofExcept.1 h
      rw [Step.handler_eq_nullable] at hread
      cases onFail with
      | none =>
          -- only `null` is read as no handler, and it offends
          cases inner with
          | null => cases hoffends .null hfound
          | _ =>
              simp only [Decoder.nullable] at hread
              generalize ofJson true _ = result at hread
              cases result <;> cases hread
      | some step => exact .cons ⟨rfl, (Decoder.nullable_eq_ok hread).2⟩ .nil

/-- A step that does not offend is read with its kind, and with the steps directly inside it. -/
theorem readFrom_keyedInside {value : Json} {nested : Bool} {step : Step}
    (hoffends : offends value = false) (hinside : ∀ inner ∈ inside value, offends inner = false)
    (h : ofJson nested value = .ok step) :
    kind? value = some step.kind ∧ List.Forall₂ ReadFrom (keyedInside value) step.keyedInside := by
  cases hkind : kind? value with
  | none => simp [offends, hkind] at hoffends
  | some kind =>
      cases value with
      | obj fields =>
          rw [ofJson_of_kind? hkind] at h
          have hreads := Reading.result_eq_ok.1 h
          simp only [keyedInside, inside, hkind] at hinside ⊢
          cases kind with simp only [ofRecord, Reading.reads_seq, Reading.reads_map] at hreads
          | switch =>
              obtain ⟨entries, hmap⟩ := exists_branches hoffends (.inl hkind)
              obtain ⟨_, branches, ⟨_, subject, ⟨id, _, rfl⟩, _, rfl⟩, hread, rfl⟩ := hreads
              have hlist : some (branchList entries) = some (.ok branches) := by
                rw [← branchesIn_of_branches? hmap]
                exact Record.eq_of_settled hread
              rw [hmap, Option.getD_some]
              exact ⟨rfl, readFrom_of_branchList (Option.some.inj hlist)⟩
          | choose =>
              obtain ⟨entries, hmap⟩ := exists_branches hoffends (.inr hkind)
              obtain ⟨_, choices, ⟨id, _, rfl⟩, hread, rfl⟩ := hreads
              have hchoices := Record.eq_of_settled hread
              rw [branchesIn_of_branches? hmap] at hchoices
              obtain ⟨steps, hlist, hguarded⟩ := exists_of_bind (Option.some.inj hchoices)
              rw [hmap, Option.getD_some]
              refine ⟨rfl, ?_⟩
              show List.Forall₂ _ _ (choices.map (Prod.map Guard.key fun step => step))
              rw [← guardKey_of_guarded hguarded, List.forall₂_map_left_iff,
                List.forall₂_map_right_iff]
              exact (readFrom_of_branchList hlist).imp fun entry branch h =>
                ⟨congrArg guardKey h.1, h.2⟩
          | callTool =>
              obtain ⟨_, onFail, ⟨_, call, ⟨id, _, rfl⟩, _, rfl⟩, hread, rfl⟩ := hreads
              refine ⟨rfl, readFrom_handler (fun inner hfound => hinside inner ?_) hread⟩
              exact Option.mem_toList.2 hfound
          | say =>
              obtain ⟨_, message, ⟨id, _, rfl⟩, _, rfl⟩ := hreads
              exact ⟨rfl, .nil⟩
          | ask =>
              obtain ⟨_, target, ⟨_, message, ⟨id, _, rfl⟩, _, rfl⟩, _, rfl⟩ := hreads
              exact ⟨rfl, .nil⟩
          | set =>
              obtain ⟨_, value, ⟨_, target, ⟨id, _, rfl⟩, _, rfl⟩, _, rfl⟩ := hreads
              exact ⟨rfl, .nil⟩
          | callFlow =>
              obtain ⟨_, callType, ⟨_, flow, ⟨id, _, rfl⟩, _, rfl⟩, _, rfl⟩ := hreads
              exact ⟨rfl, .nil⟩
      | _ => cases hkind

theorem arrangements_eq {entries : List (String × Json)} {branches : List (String × Step)}
    (hread : List.Forall₂ ReadFrom entries branches)
    (heach : ∀ entry ∈ entries, ∀ step, ofJson true entry.2 = .ok step →
      arrangement entry.2 = step.arrangement) :
    entries.map (Prod.map (fun key => key) arrangement)
      = branches.map (Prod.map (fun key => key) Step.arrangement) := by
  rw [← List.forall₂_eq_eq_eq, List.forall₂_map_left_iff, List.forall₂_map_right_iff]
  refine ((List.forall₂_and_left _ _).2 ⟨heach, hread⟩).imp fun entry branch h => ?_
  exact Prod.ext h.2.1 (h.1 branch.2 h.2.2)

/-- If no step offends in a value that a step is read from, then the steps are arranged alike. -/
theorem arrangement_of_ofJson {value : Json} {nested : Bool} {step : Step}
    (hnone : ∀ s ∈ stepsOf value, offends s = false) (h : ofJson nested value = .ok step) :
    arrangement value = step.arrangement := by
  induction value using inside_induction generalizing nested step with
  | h value ih =>
    rw [stepsOf_eq] at hnone
    obtain ⟨hself, hinside⟩ := List.forall_mem_cons.1 hnone
    have hdirect : ∀ inner ∈ inside value, ∀ s ∈ stepsOf inner, offends s = false :=
      fun inner hinner s hs => hinside s (List.mem_flatMap.2 ⟨inner, hinner, hs⟩)
    obtain ⟨hkind, hbranches⟩ := readFrom_keyedInside hself
      (fun inner hinner => hdirect inner hinner inner (by rw [stepsOf_eq]; exact .head _)) h
    rw [arrangement_eq, Step.arrangement_eq, hkind, arrangements_eq hbranches]
    intro entry hentry inner hread
    have hinner : entry.2 ∈ inside value := by
      rw [inside_eq]
      exact List.mem_map_of_mem hentry
    exact ih entry.2 hinner (hdirect entry.2 hinner) hread

end Outline

namespace Definition

open Outline (FailsAlone arrangement checkFlow nameOf offends outermost stepsOf stepsOfFlow typeOf?)

theorem ofName?_eq_none_iff {name : String} :
    StepKind.ofName? name = none ↔ name ∉ StepKind.all.map StepKind.name := by
  simp only [StepKind.ofName?, List.find?_eq_none, List.mem_map, decide_eq_true_eq, not_exists,
    not_and]

theorem decode_eq_error {flow : Json} {error : DefinitionError} (h : decode flow = .error error) :
    ∃ e, decoder flow = .error e ∧ error = .malformed (nameOf flow) (.undecodable e) := by
  unfold decode at h
  cases hdecoder : decoder flow with
  | ok definition => rw [hdecoder] at h; cases h
  | error e =>
      rw [hdecoder] at h
      cases h
      exact ⟨e, rfl, rfl⟩

theorem parse_eq_unknown_iff {flow : Json} {name type : String} :
    parse flow = .error (.unknownStepType name type) ↔
      checkFlow flow = .error (.unknownStepType name type) := by
  unfold parse
  cases hcheck : checkFlow flow with
  | error e => simp
  | ok =>
      refine iff_of_false (fun h => ?_) nofun
      obtain ⟨e, -, heq⟩ := decode_eq_error h
      cases heq

theorem exists_of_parse {flow : Json} {definition : Definition} (h : parse flow = .ok definition) :
    checkFlow flow = .ok () ∧ decoder flow = .ok definition := by
  unfold parse at h
  cases hcheck : checkFlow flow with
  | error e => rw [hcheck] at h; cases h
  | ok =>
      rw [hcheck] at h
      refine ⟨rfl, ?_⟩
      simp only [decode] at h
      cases hdecoder : decoder flow with
      | error e => rw [hdecoder] at h; cases h
      | ok d => rw [hdecoder] at h; cases h; rfl

/-- The steps and the variables of a flow are read from its entries. -/
theorem reads_of_decoder {fields : Fields} {definition : Definition}
    (h : decoder (.obj fields) = .ok definition) :
    (Record.required "steps" (Decoder.list (Step.ofJson false)) ⟨fields, none⟩).Reads
        definition.steps ∧
      (Record.withDefault "variables" [] Decoder.fields ⟨fields, none⟩).Reads definition.vars := by
  have hreads := Reading.result_eq_ok.1 h
  simp only [Reading.reads_seq, Reading.reads_map] at hreads
  obtain ⟨_, metadata, ⟨_, vars, ⟨_, steps, ⟨_, version, ⟨_, description, ⟨_, name, ⟨id, _, rfl⟩,
    _, rfl⟩, _, rfl⟩, _, rfl⟩, hsteps, rfl⟩, hvars, rfl⟩, _, rfl⟩ := hreads
  exact ⟨hsteps, hvars⟩

/-- The steps of a flow that is read are read in order from its outermost steps, and none offends
in these. -/
theorem forall₂_of_parse {flow : Json} {definition : Definition}
    (h : parse flow = .ok definition) : List.Forall₂
      (fun item step => (∀ s ∈ stepsOf item, offends s = false) ∧ Step.ofJson false item = .ok step)
      (outermost flow) definition.steps := by
  obtain ⟨hcheck, hdecoder⟩ := exists_of_parse h
  have hnone := (Outline.checkFlow_eq_ok_iff.1 hcheck).2
  refine (List.forall₂_and_left _ _).2 ⟨fun item hitem s hs => ?_, ?_⟩
  · exact hnone s (List.mem_flatMap.2 ⟨item, hitem, hs⟩)
  · cases flow with
    | obj fields =>
        obtain ⟨value, hfound, hread⟩ := Record.reads_required.1 (reads_of_decoder hdecoder).1
        have hfound : Table.get? "steps" fields = some value := hfound
        cases value with
        | arr items =>
            have houtermost : outermost (.obj fields) = items := by
              simp [outermost, Json.get?, hfound, Json.asArr?]
            rw [houtermost]
            exact Decoder.forall₂_of_each hread
        | _ => cases hread
    | _ => cases hcheck

/-- A flow that is read has its steps arranged as in the value that it is read from. -/
theorem arrangement_of_parse {flow : Json} {definition : Definition}
    (h : parse flow = .ok definition) :
    (outermost flow).map arrangement = definition.steps.map Step.arrangement := by
  rw [← List.forall₂_eq_eq_eq, List.forall₂_map_left_iff, List.forall₂_map_right_iff]
  exact (forall₂_of_parse h).imp fun item step hread =>
    Outline.arrangement_of_ofJson hread.1 hread.2

/-- The check of the outline and the decoder agree.  A flow is refused for a type that does not exist
exactly if the first step that offends, in depth-first order, names it.  If the outline is in order
and the flow is not decoded, then it fails without its steps as well, or one of its steps, none of
which offends, fails whatever steps are inside it.  A flow that is read has its steps arranged as in
the value that it is read from. -/
theorem outline_and_decoder_agree (flow : Json) :
    (∀ name type, parse flow = .error (.unknownStepType name type) ↔ name = nameOf flow ∧
      ∃ step, (stepsOfFlow flow).find? offends = some step ∧ typeOf? step = some type ∧
        type ∉ StepKind.all.map StepKind.name) ∧
    (checkFlow flow = .ok () → ∀ error, decode flow = .error error →
      ∃ e, error = .malformed (nameOf flow) (.undecodable e) ∧
        (FailsWithoutSteps flow e ∨
          ∃ step ∈ stepsOfFlow flow, offends step = false ∧ FailsAlone step e)) ∧
    ∀ definition, parse flow = .ok definition →
      (outermost flow).map arrangement = definition.steps.map Step.arrangement := by
  refine ⟨fun name type => ?_, fun hcheck error herror => ?_, fun _ => arrangement_of_parse⟩
  · rw [parse_eq_unknown_iff, Outline.checkFlow_eq_unknown_iff]
    simp only [ofName?_eq_none_iff]
  · obtain ⟨e, hfails, rfl⟩ := decode_eq_error herror
    refine ⟨e, rfl, (fault_of_decoder hcheck hfails).imp_right ?_⟩
    rintro ⟨step, hstep, halone⟩
    exact ⟨step, hstep, (Outline.checkFlow_eq_ok_iff.1 hcheck).2 step hstep, halone⟩

end Definition

end Parley
