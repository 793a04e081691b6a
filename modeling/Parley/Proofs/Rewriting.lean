import Parley.Proofs.WrittenSteps

/-!
# Definitions written and read again

A value has each key once, but a choice may have one guard twice: two keys that
differ in blanks stand for the same condition.  Written as a value, such a choice
keeps the first place and the last step of the guard.  So a definition that was
read, written and read again is the same definition exactly if no choice in it,
at any depth, repeats a guard.
-/

set_option autoImplicit false

namespace Parley

theorem Wording.Decoded.mergedFields_variants {declared : List String} {message : Wording}
    (h : message.Decoded declared) : Json.mergedFields message.variants = message.variants :=
  Json.mergedFields_of_each fun variant there => (h.distinct variant there).merged_eq

namespace Step

mutual

/-- The step with every repeated guard of a choice merged: it keeps its first place and its last
step. -/
def merged : Step → Step
  | .switch id subject branches => .switch id subject (mergedBranches branches)
  | .choose id branches => .choose id (Table.ofEntries (mergedChoices branches))
  | .callTool id call onFail => .callTool id call (mergedHandler onFail)
  | .say id message => .say id message
  | .ask id message target => .ask id message target
  | .set id target value => .set id target value
  | .callFlow id flow callType => .callFlow id flow callType

/-- Branches on a value, each merged. -/
def mergedBranches : List (String × Step) → List (String × Step)
  | [] => []
  | (key, step) :: branches => (key, merged step) :: mergedBranches branches

/-- Branches on conditions, each merged. -/
def mergedChoices : List (Guard × Step) → List (Guard × Step)
  | [] => []
  | (guard, step) :: branches => (guard, merged step) :: mergedChoices branches

/-- A handler, merged. -/
def mergedHandler : Option Step → Option Step
  | some step => some (merged step)
  | none => none

end

/-- No choice in the step, at any depth, repeats a guard. -/
inductive GuardsApart : Step → Prop where
  | say {id : String} {message : Wording} : GuardsApart (.say id message)
  | ask {id : String} {message : Wording} {target : Option String} :
    GuardsApart (.ask id message target)
  | set {id target : String} {value : Json} : GuardsApart (.set id target value)
  | switch {id subject : String} {branches : List (String × Step)}
      (each : ∀ branch ∈ branches, GuardsApart branch.2) : GuardsApart (.switch id subject branches)
  | choose {id : String} {branches : List (Guard × Step)} (apart : (Table.keys branches).Nodup)
      (each : ∀ branch ∈ branches, GuardsApart branch.2) : GuardsApart (.choose id branches)
  | callTool {id : String} {call : ToolCall} {onFail : Option Step}
      (handler : ∀ step ∈ onFail, GuardsApart step) : GuardsApart (.callTool id call onFail)
  | callFlow {id flow : String} {callType : CallType} : GuardsApart (.callFlow id flow callType)

/-- The branches with each step merged. -/
def eachMerged {κ : Type} (branches : List (κ × Step)) : List (κ × Step) :=
  branches.map (Prod.map (fun key => key) merged)

theorem mergedBranches_eq (branches : List (String × Step)) :
    mergedBranches branches = eachMerged branches := by
  induction branches with
  | nil => rfl
  | cons branch branches ih => rw [mergedBranches, ih]; rfl

theorem mergedChoices_eq (branches : List (Guard × Step)) :
    mergedChoices branches = eachMerged branches := by
  induction branches with
  | nil => rfl
  | cons branch branches ih => rw [mergedChoices, ih]; rfl

theorem mergedHandler_eq (onFail : Option Step) : mergedHandler onFail = onFail.map merged := by
  cases onFail <;> rfl

@[simp] theorem keys_eachMerged {κ : Type} (branches : List (κ × Step)) :
    Table.keys (eachMerged branches) = Table.keys branches := by
  simp [Table.keys, eachMerged]

theorem mem_eachMerged {κ : Type} {branches : List (κ × Step)} {branch : κ × Step}
    (h : branch ∈ eachMerged branches) :
    ∃ source ∈ branches, source.1 = branch.1 ∧ source.2.merged = branch.2 := by
  obtain ⟨source, there, rfl⟩ := List.mem_map.mp h
  exact ⟨source, there, rfl, rfl⟩

theorem eachMerged_eq_iff {κ : Type} {branches : List (κ × Step)} :
    eachMerged branches = branches ↔ ∀ branch ∈ branches, branch.2.merged = branch.2 := by
  induction branches with
  | nil => simp [eachMerged]
  | cons branch branches ih =>
    obtain ⟨key, step⟩ := branch
    simpa [eachMerged] using fun _ => ih

/-- Merging keeps branches exactly if their keys are apart and each step is kept. -/
theorem ofEntries_eachMerged_eq_iff {κ : Type} [DecidableEq κ] {branches : List (κ × Step)} :
    Table.ofEntries (eachMerged branches) = branches ↔
      (Table.keys branches).Nodup ∧ ∀ branch ∈ branches, branch.2.merged = branch.2 := by
  constructor
  · intro same
    have apart : (Table.keys branches).Nodup := same ▸ Table.nodup_ofEntries (eachMerged branches)
    rw [Table.ofEntries_of_nodup (by rwa [keys_eachMerged])] at same
    exact ⟨apart, eachMerged_eq_iff.mp same⟩
  · rintro ⟨apart, each⟩
    rw [eachMerged_eq_iff.mpr each, Table.ofEntries_of_nodup apart]

/-- Merging keeps a step exactly if no choice in it repeats a guard. -/
theorem Decoded.merged_eq_iff {step : Step} (h : step.Decoded) :
    step.merged = step ↔ step.GuardsApart := by
  induction h with
  | say => exact iff_of_true rfl .say
  | ask => exact iff_of_true rfl .ask
  | set => exact iff_of_true rfl .set
  | callFlow => exact iff_of_true rfl .callFlow
  | switch _ _ ih =>
    rw [Step.merged, mergedBranches_eq, Step.switch.injEq, eachMerged_eq_iff, forall₂_congr ih]
    constructor
    · rintro ⟨_, _, each⟩
      exact .switch each
    · intro apart
      cases apart with
      | switch each => exact ⟨rfl, rfl, each⟩
  | choose _ _ ih =>
    rw [Step.merged, mergedChoices_eq, Step.choose.injEq, ofEntries_eachMerged_eq_iff,
      forall₂_congr ih]
    constructor
    · rintro ⟨_, apart, each⟩
      exact .choose apart each
    · intro apart
      cases apart with
      | choose guards each => exact ⟨rfl, guards, each⟩
  | @callTool id call onFail _ _ ih =>
    rw [Step.merged, mergedHandler_eq, Step.callTool.injEq]
    constructor
    · rintro ⟨_, _, same⟩
      apply GuardsApart.callTool
      rintro step rfl
      exact (ih step rfl).mp (Option.some.inj same)
    · intro apart
      cases apart with
      | callTool handler =>
        refine ⟨rfl, rfl, ?_⟩
        cases onFail with
        | none => rfl
        | some step => exact congrArg some ((ih step rfl).mpr (handler step rfl))

/-- A merged step still has all that decoding leaves. -/
theorem Decoded.merged {step : Step} (h : step.Decoded) : step.merged.Decoded := by
  induction h with
  | say wording => exact .say wording
  | ask wording => exact .ask wording
  | set distinct => exact .set distinct
  | callFlow => exact .callFlow
  | @switch id subject branches distinct _ ih =>
    rw [Step.merged, mergedBranches_eq]
    refine .switch (by rwa [keys_eachMerged]) ?_
    intro branch there
    obtain ⟨source, present, _, eq⟩ := mem_eachMerged there
    exact eq ▸ ih source present
  | @choose id branches guards _ ih =>
    rw [Step.merged, mergedChoices_eq]
    refine .choose ?_ ?_
    · intro branch there
      obtain ⟨source, present, same, _⟩ := mem_eachMerged (Table.mem_ofEntries there)
      exact same ▸ guards source present
    · intro branch there
      obtain ⟨source, present, _, eq⟩ := mem_eachMerged (Table.mem_ofEntries there)
      exact eq ▸ ih source present
  | @callTool id call onFail called _ ih =>
    rw [Step.merged, mergedHandler_eq]
    refine .callTool called ?_
    intro step given
    obtain ⟨source, present, rfl⟩ := Option.map_eq_some_iff.mp given
    exact ih source present

theorem kind_merged (step : Step) : step.merged.kind = step.kind := by
  cases step <;> rfl

theorem id_merged (step : Step) : step.merged.id = step.id := by
  cases step <;> rfl

/-- The merged written forms of branches are the written forms of the merged branches. -/
theorem mergedFields_map {κ : Type} (name : κ → String) {branches : List (κ × Step)}
    (each : ∀ branch ∈ branches, branch.2.toJson.merged = branch.2.merged.toJson) :
    Json.mergedFields (branches.map (Prod.map name toJson))
      = (eachMerged branches).map (Prod.map name toJson) := by
  rw [Json.mergedFields_eq_map, eachMerged, List.map_map, List.map_map]
  apply List.map_congr_left
  intro branch there
  exact Prod.ext rfl (each branch there)

/-- The merged entries of a call are its entries. -/
theorem mergedFields_call {call : ToolCall} (h : call.Decoded) :
    Json.mergedFields call.entries = call.entries := by
  apply Json.mergedFields_of_each
  have args : ∀ field ∈ entryIfSome "args" call.args, field.2.merged = field.2 := by
    rw [Table.forall_mem_entryIfSome]
    exact fun value given => (h.args value given).2.merged_eq
  have target : ∀ field ∈ entryIfSome "variable" (call.target.map Json.str),
      field.2.merged = field.2 := by
    rw [Table.forall_mem_entryIfSome]
    simp [Json.merged]
  have retry : ∀ field ∈ entryIfSome "retry" (call.retry.map RetryPolicy.toJson),
      field.2.merged = field.2 := by
    rw [Table.forall_mem_entryIfSome]
    simp [(RetryPolicy.keysDistinct_toJson _).merged_eq]
  intro field there
  simp only [ToolCall.entries, List.mem_append, List.mem_singleton] at there
  rcases there with ((rfl | there) | there) | there
  · rfl
  · exact args field there
  · exact target field there
  · exact retry field there

theorem Decoded.merged_toJson_of_body {step : Step} (h : step.Decoded)
    (same : Json.mergedFields step.body = step.merged.body) :
    step.toJson.merged = step.merged.toJson := by
  rw [toJson_eq, toJson_eq, Json.merged_obj h.nodup_keys, Json.mergedFields_append, same,
    kind_merged, id_merged]
  rfl

/-- The merged written form of a step is the written form of the merged step. -/
theorem Decoded.merged_toJson {step : Step} (h : step.Decoded) :
    step.toJson.merged = step.merged.toJson := by
  induction h with
  | @say id message wording =>
    apply (Decoded.say wording).merged_toJson_of_body
    show Json.mergedFields (("value", .str message.base) :: message.variants) = _
    rw [Json.mergedFields, wording.mergedFields_variants]
    rfl
  | @ask id message target wording =>
    apply (Decoded.ask wording).merged_toJson_of_body
    show Json.mergedFields (("value", .str message.base)
      :: (entryIfSome "variable" (target.map Json.str) ++ message.variants)) = _
    rw [Json.mergedFields, Json.mergedFields_append, wording.mergedFields_variants]
    cases target <;> rfl
  | @set id target value distinct =>
    apply (Decoded.set distinct).merged_toJson_of_body
    show [("variable", Json.str target), ("value", value.merged)] = _
    rw [distinct.merged_eq]
    rfl
  | callFlow => exact Decoded.callFlow.merged_toJson_of_body rfl
  | @switch id subject branches distinct each ih =>
    apply (Decoded.switch distinct each).merged_toJson_of_body
    have keys : (Table.keys (branchEntries branches)).Nodup := by
      simpa [Table.keys, branchEntries_eq_map, Function.comp_def] using distinct
    show [("variable", Json.str subject), ("branches", (Json.obj (branchEntries branches)).merged)]
      = _
    rw [Json.merged_obj keys, branchEntries_eq_map, mergedFields_map _ ih, ← branchEntries_eq_map,
      ← mergedBranches_eq]
    rfl
  | @choose id branches guards each ih =>
    apply (Decoded.choose guards each).merged_toJson_of_body
    show [("branches", Json.obj (Table.ofEntries (Json.mergedFields (choiceEntries branches))))] = _
    rw [choiceEntries_eq_map, mergedFields_map _ ih, Table.ofEntries_map Guard.key_injective,
      ← choiceEntries_eq_map, ← mergedChoices_eq]
    rfl
  | @callTool id call onFail called handler ih =>
    apply (Decoded.callTool called handler).merged_toJson_of_body
    show Json.mergedFields (call.entries
      ++ (handlerEntry onFail ++ [("retryCount", .nat call.retryCount)])) = _
    rw [Json.mergedFields_append, mergedFields_call called, Json.mergedFields_append]
    cases onFail with
    | none => rfl
    | some step =>
      have inner := ih step rfl
      show call.entries ++ ([("onFail", step.toJson.merged)] ++ _) = _
      rw [inner]
      rfl

end Step

namespace Definition

/-- The definition with every repeated guard of a choice merged. -/
def merged (definition : Definition) : Definition :=
  { definition with steps := definition.steps.map Step.merged }

/-- The merged written form of a definition is the written form of the merged definition. -/
theorem Decoded.merged_toJson {definition : Definition} (h : definition.Decoded) :
    definition.toJson.merged = definition.merged.toJson := by
  have steps : Json.mergedItems (definition.steps.map Step.toJson)
      = (definition.steps.map Step.merged).map Step.toJson := by
    rw [Json.mergedItems_eq_map, List.map_map, List.map_map]
    apply List.map_congr_left
    intro step there
    exact (h.steps step there).merged_toJson
  have metadata : definition.metadata.toJson.merged = definition.metadata.toJson := by
    obtain ⟨riskLevel, category⟩ := definition.metadata
    cases riskLevel <;> cases category <;> rfl
  show Json.obj (Table.ofEntries [("id", .str definition.id), ("name", .str definition.name),
    ("description", .str definition.description), ("version", .str definition.version),
    ("steps", .arr (Json.mergedItems (definition.steps.map Step.toJson))),
    ("variables", (Json.obj definition.vars).merged),
    ("metadata", definition.metadata.toJson.merged)]) = _
  rw [steps, h.vars.merged_eq, metadata]
  rfl

theorem Decoded.merged {definition : Definition} (h : definition.Decoded) :
    definition.merged.Decoded := by
  refine ⟨?_, h.vars⟩
  intro step there
  obtain ⟨source, present, rfl⟩ := List.mem_map.mp there
  exact (h.steps source present).merged

theorem Decoded.merged_eq_iff {definition : Definition} (h : definition.Decoded) :
    definition.merged = definition ↔ ∀ step ∈ definition.steps, step.GuardsApart := by
  have each : definition.steps.map Step.merged = definition.steps ↔
      ∀ step ∈ definition.steps, step.merged = step := by
    simpa using List.map_inj_left (f := Step.merged) (g := fun step => step) (l := definition.steps)
  rw [← forall₂_congr fun step there => (h.steps step there).merged_eq_iff, ← each]
  constructor
  · exact congrArg Definition.steps
  · intro same
    rw [Definition.merged, same]

/-- A definition that was read from a value with distinct keys is written as a value that is read
again, as the definition with repeated guards merged.  That is the same definition exactly if no
choice in it repeats a guard. -/
theorem parse_written {value : Json} {definition : Definition}
    (h : parse value.merged = .ok definition) :
    parse definition.toJson.merged = .ok definition.merged ∧
      (parse definition.toJson.merged = .ok definition ↔
        ∀ step ∈ definition.steps, step.GuardsApart) := by
  have decoded := Decoded.of_parse (Json.keysDistinct_merged value) h
  have again : parse definition.toJson.merged = .ok definition.merged := by
    rw [decoded.merged_toJson]
    exact decoded.merged.parse_toJson
  refine ⟨again, ?_⟩
  rw [again, Except.ok.injEq]
  exact decoded.merged_eq_iff

end Definition

namespace Kiosk

/-- A flow that greets a guest, with a second branch under the given key. -/
def greeting (second : String) : Json :=
  .obj [("name", .str "Greeting"), ("steps", .arr [.obj [("type", .str "CASE"), ("branches", .obj [
    ("condition:known", .obj [("type", .str "SAY"), ("value", .str "Welcome back")]),
    (second, .obj [("type", .str "SAY"), ("value", .str "Welcome")])])]])]

/-- The branch for a guest who has been here before. -/
def welcomeBack : Guard × Step :=
  (.condition "known", .say "" (.plain "Welcome back"))

/-- The branch for another guest. -/
def welcome (guard : Guard) : Guard × Step :=
  (guard, .say "" (.plain "Welcome"))

/-- The greeting as it is decoded. -/
def greeted (branches : List (Guard × Step)) : Definition :=
  ⟨"", "Greeting", "", "", [.choose "" branches], [], .empty⟩

/-- A greeting whose branches have two guards is read again as it was. -/
theorem greeting_kept :
    Definition.parse (greeting "default").merged = .ok (greeted [welcomeBack, welcome .otherwise]) ∧
    Definition.parse (greeted [welcomeBack, welcome .otherwise]).toJson.merged
      = .ok (greeted [welcomeBack, welcome .otherwise]) := by
  have read : Definition.parse (greeting "default").merged
      = .ok (greeted [welcomeBack, welcome .otherwise]) := by cbv
  have apart : ∀ step ∈ (greeted [welcomeBack, welcome .otherwise]).steps, step.GuardsApart := by
    rw [greeted, List.forall_mem_singleton]
    apply Step.GuardsApart.choose
    · decide
    · simp [welcomeBack, welcome, Step.GuardsApart.say]
  exact ⟨read, (Definition.parse_written read).2.mpr apart⟩

/-- Two keys that differ in a blank are one guard.  The greeting of a guest who is known is then
written over, and the flow that is read again greets every guest as a new one. -/
theorem greeting_lost : ¬ ∀ (value : Json) (definition : Definition),
    Definition.parse value.merged = .ok definition →
      Definition.parse definition.toJson.merged = .ok definition := by
  intro kept
  have read : Definition.parse (greeting "condition: known").merged
      = .ok (greeted [welcomeBack, welcome (.condition "known")]) := by cbv
  have again : Definition.parse (greeted [welcomeBack, welcome (.condition "known")]).toJson.merged
      = .ok (greeted [welcome (.condition "known")]) := by cbv
  rw [kept _ _ read] at again
  injection again with same
  exact absurd (congrArg Definition.steps same) (by simp [greeted])

end Kiosk

end Parley
