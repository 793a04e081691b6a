import Parley.Proofs.DecodedSteps

/-!
# Reading what was written

The outline of a written step is in order, and a step with all that decoding
leaves is decoded from its written form again.
-/

set_option autoImplicit false

namespace Parley

namespace Table

theorem get?_entryIfSome (key name : String) (o : Option Json) :
    get? key (entryIfSome name o) = if name = key then o else none := by
  cases o with
  | none => simp [entryIfSome, get?]
  | some value => rfl

theorem forall_mem_entryIfSome {p : String × Json → Prop} {name : String} {o : Option Json} :
    (∀ entry ∈ entryIfSome name o, p entry) ↔ ∀ value ∈ o, p (name, value) := by
  cases o <;> simp [entryIfSome]

end Table

/-- No variant of a message has the name of a field. -/
theorem Wording.Decoded.absent {declared : List String} {message : Wording} {name : String}
    (decoded : message.Decoded declared) (h : name ∈ declared) :
    Table.get? name message.variants = none := by
  apply Table.get?_of_notMem
  intro there
  obtain ⟨variant, present, rfl⟩ := List.mem_map.mp there
  exact (decoded.undeclared variant present).2 h

namespace Step

/-! ## The entries of a written step -/

/-- The entries that follow those that every step starts with. -/
def body : Step → Fields
  | .say _ message => ("value", .str message.base) :: message.variants
  | .ask _ message target =>
    ("value", .str message.base)
      :: (entryIfSome "variable" (target.map Json.str) ++ message.variants)
  | .set _ target value => [("variable", .str target), ("value", value)]
  | .switch _ subject branches =>
    [("variable", .str subject), ("branches", .obj (branchEntries branches))]
  | .choose _ branches => [("branches", .obj (choiceEntries branches))]
  | .callTool _ call onFail =>
    call.entries ++ (handlerEntry onFail ++ [("retryCount", .nat call.retryCount)])
  | .callFlow _ flow callType => [("flow", .str flow), ("callType", .str callType.name)]

theorem toJson_eq (step : Step) : step.toJson = .obj (header step.kind step.id ++ step.body) := by
  cases step <;> simp [toJson, body, kind, Step.id]

theorem branchEntries_eq_map (branches : List (String × Step)) :
    branchEntries branches = branches.map (Prod.map (fun key => key) toJson) := by
  induction branches with
  | nil => rw [branchEntries, List.map_nil]
  | cons branch branches ih => rw [branchEntries, List.map_cons, ih, Prod.map]

theorem choiceEntries_eq_map (branches : List (Guard × Step)) :
    choiceEntries branches = branches.map (Prod.map Guard.key toJson) := by
  induction branches with
  | nil => rw [choiceEntries, List.map_nil]
  | cons branch branches ih => rw [choiceEntries, List.map_cons, ih, Prod.map]

theorem handlerEntry_eq (onFail : Option Step) :
    handlerEntry onFail = entryIfSome "onFail" (onFail.map toJson) := by
  cases onFail <;> simp [handlerEntry, entryIfSome]

theorem get?_onFail_body (id : String) (call : ToolCall) (onFail : Option Step) :
    Table.get? "onFail" (callTool id call onFail).body = onFail.map toJson := by
  simp [body, handlerEntry_eq, ToolCall.entries, Table.get?, Table.get?_append,
    Table.get?_entryIfSome]

theorem nodup_keys_message {declared : List String} {message : Wording} {before : Fields}
    (decoded : message.Decoded declared) (names : (Table.keys before).Nodup)
    (inner : ∀ entry ∈ before, entry.1 = tagKey ∨ entry.1 ∈ declared) :
    (Table.keys (before ++ message.variants)).Nodup := by
  rw [Table.keys_append]
  apply List.Nodup.append names decoded.ascending.nodup
  intro name there present
  obtain ⟨entry, early, rfl⟩ := List.mem_map.mp there
  obtain ⟨variant, late, same⟩ := List.mem_map.mp present
  have undeclared := decoded.undeclared variant late
  rw [same] at undeclared
  rcases inner entry early with tag | inner
  · exact undeclared.1 tag
  · exact undeclared.2 inner

theorem keys_entryIfSome_sublist (name : String) (o : Option Json) :
    (Table.keys (entryIfSome name o)).Sublist [name] := by
  cases o with
  | none => exact List.nil_sublist _
  | some value => exact List.Sublist.refl _

theorem keys_callTool_sublist (id : String) (call : ToolCall) (onFail : Option Step) :
    (Table.keys (header .callTool id ++ (callTool id call onFail).body)).Sublist
      (tagKey :: StepKind.callTool.fieldNames) := by
  have args := keys_entryIfSome_sublist "args" call.args
  have target := keys_entryIfSome_sublist "variable" (call.target.map Json.str)
  have retry := keys_entryIfSome_sublist "retry" (call.retry.map RetryPolicy.toJson)
  have handler := keys_entryIfSome_sublist "onFail" (onFail.map toJson)
  rw [← handlerEntry_eq] at handler
  have fields := ((args.append target).append retry).append
    (handler.append (List.Sublist.refl ["retryCount"]))
  simp only [body, ToolCall.entries, Table.keys_append, List.append_assoc] at fields ⊢
  exact (List.Sublist.refl [tagKey, "id", "tool"]).append fields

/-- No two entries of a written step have the same name. -/
theorem Decoded.nodup_keys {step : Step} (h : step.Decoded) :
    (Table.keys (header step.kind step.id ++ step.body)).Nodup := by
  cases h with
  | @say id message wording =>
    show (Table.keys ((header .say id ++ [("value", .str message.base)]) ++ message.variants)).Nodup
    apply nodup_keys_message wording
    · simp [header, Table.keys]
    · simp [header, tagKey]
  | @ask id message target wording =>
    have assoc : header .ask id ++ (Step.ask id message target).body = (header .ask id
        ++ [("value", .str message.base)] ++ entryIfSome "variable" (target.map Json.str))
        ++ message.variants := by
      simp [body]
    show (Table.keys (header .ask id ++ (Step.ask id message target).body)).Nodup
    rw [assoc]
    apply nodup_keys_message wording
    · cases target <;> simp [header, Table.keys, entryIfSome]
    · cases target <;> simp [header, tagKey, entryIfSome]
  | callTool called handler =>
    exact List.Nodup.sublist (keys_callTool_sublist _ _ _) (by decide)
  | _ => simp [header, body, Table.keys]

theorem Decoded.tagless {step : Step} (h : step.Decoded) : ∀ entry ∈ step.body, entry.1 ≠ tagKey := by
  intro entry there same
  have distinct : (tagKey :: "id" :: Table.keys step.body).Nodup := h.nodup_keys
  apply (List.nodup_cons.mp distinct).1
  rw [← same]
  exact List.mem_cons_of_mem "id" (Table.mem_keys_of_mem there)

/-! ## Decoding the entries -/

/-- A written step is decoded from the entries that follow its tag. -/
theorem Decoded.ofJson_toJson_eq {step : Step} (h : step.Decoded) (nested : Bool) :
    ofJson nested step.toJson = (ofRecord step.kind ⟨branchesIn step.body, handlerIn step.body⟩
      ⟨("id", .str step.id) :: step.body, none⟩).result := by
  have tag : StepKind.ofTag nested (.str step.kind.name) = .ok step.kind := by
    cases step <;> rfl
  have record : recordOf (header step.kind step.id ++ step.body)
      = ⟨("id", .str step.id) :: step.body, none⟩ := by
    have kept : step.body.filter (fun entry => entry.1 ≠ tagKey) = step.body := by
      apply List.filter_eq_self.mpr
      intro entry there
      simpa using h.tagless entry there
    show Record.mk (("id", .str step.id) :: step.body.filter fun entry => entry.1 ≠ tagKey) none = _
    rw [kept]
  rw [toJson_eq, ofJson]
  show (StepKind.ofTag nested (.str step.kind.name)).bind _ = _
  rw [tag]
  show (ofRecord step.kind _ (recordOf (header step.kind step.id ++ step.body))).result = _
  rw [record]
  simp [header, branchesIn, handlerIn]

section Entries

variable {id : String} {rest : Fields}

theorem reads_idIn : (idIn ⟨("id", .str id) :: rest, none⟩).Reads id :=
  Record.reads_withDefault.mpr rfl

/-- A message is read from its text and its variants, with only declared fields in between. -/
theorem reads_wording {declared : List String} {message : Wording} {between : Fields}
    (decoded : message.Decoded declared) (names : ["id", "value", "prompt"] ⊆ declared)
    (inner : ∀ entry ∈ between, entry.1 ∈ declared ∧ entry.1 ≠ "prompt") :
    (wording declared ⟨("id", .str id) ::
      ("value", .str message.base) :: (between ++ message.variants), none⟩).Reads message := by
  obtain ⟨base, variants⟩ := message
  have noPrompt : Table.get? "prompt" (between ++ variants) = none := by
    have apart : "prompt" ∉ Table.keys between := by
      intro there
      obtain ⟨entry, there, same⟩ := List.mem_map.mp there
      exact (inner entry there).2 same
    rw [Table.get?_append, Table.get?_of_notMem apart, decoded.absent (names (by simp))]
    rfl
  have text : (Record.requiredAs "value" "prompt" Decoder.string ⟨("id", .str id) ::
      ("value", .str base) :: (between ++ variants), none⟩).Reads base := by
    apply Record.reads_requiredAs
    · rfl
    · exact noPrompt
    · rfl
  have dropped : between.filter (fun entry => !(declared.contains entry.1)) = [] := by
    apply List.filter_eq_nil_iff.mpr
    intro entry there
    simpa using (inner entry there).1
  have kept : variants.filter (fun entry => !(declared.contains entry.1)) = variants := by
    apply List.filter_eq_self.mpr
    intro entry there
    simpa using (decoded.undeclared entry there).2
  have first : declared.contains "id" = true := by simpa using names (by simp)
  have second : declared.contains "value" = true := by simpa using names (by simp)
  refine Reading.reads_map.mpr ⟨base, text, ?_⟩
  simp only [List.filter_cons, List.filter_append, dropped, kept, first, second]
  simp [Table.sorted_of_ascending decoded.ascending]

theorem reads_handler {onFail : Option Step}
    (found : Table.get? "onFail" rest = onFail.map toJson)
    (each : ∀ step ∈ onFail, ofJson true step.toJson = .ok step) :
    (Record.settledOrNone "onFail" (handlerIn rest) ⟨("id", .str id) :: rest, none⟩).Reads onFail := by
  rw [handlerIn_eq, found]
  cases onFail with
  | none => simp [Record.settledOrNone]
  | some step =>
    have nonnull : step.toJson ≠ .null := by
      rw [toJson_eq]
      exact nofun
    have decoded := Decoder.nullable_of_ne_null nonnull (each step rfl)
    simp [Record.settledOrNone, Record.find?, Table.get?, found, handler_eq_nullable, decoded]

theorem reads_callIn {call : ToolCall} {handler : Option Json} (decoded : call.Decoded) :
    (callIn ⟨("id", .str id) :: (call.entries ++ (entryIfSome "onFail" handler
      ++ [("retryCount", .nat call.retryCount)])), none⟩).Reads call := by
  refine ((((Reading.Reads.map ?_ ToolCall.mk).seq ?_).seq ?_).seq ?_).seq ?_
  · exact Record.reads_required.mpr ⟨_, rfl, rfl⟩
  · apply Record.reads_orNone fun value => value
    · simp [Table.get?, Table.get?_append, Table.get?_entryIfSome, ToolCall.entries]
    · exact fun value given => (decoded.args value given).1
    · exact fun _ _ => rfl
  · apply Record.reads_orNone Json.str
    · simp [Table.get?, Table.get?_append, Table.get?_entryIfSome, ToolCall.entries]
    · rintro _ _ ⟨⟩
    · exact fun _ _ => rfl
  · apply Record.reads_orNone RetryPolicy.toJson
    · simp [Table.get?, Table.get?_append, Table.get?_entryIfSome, ToolCall.entries]
    · rintro _ _ ⟨⟩
    · exact decoded.retry
  · rw [Record.reads_withDefault]
    simp [Table.get?, Table.get?_append, Table.get?_entryIfSome, ToolCall.entries]
    exact decoded.retryCount

end Entries

/-- Branches are decoded from their written forms, whatever their keys are written as. -/
theorem branchList_map {κ : Type} (name : κ → String) {branches : List (κ × Step)}
    (each : ∀ branch ∈ branches, ofJson true branch.2.toJson = .ok branch.2) :
    branchList (branches.map (Prod.map name toJson))
      = .ok (branches.map (Prod.map name fun step => step)) := by
  induction branches with
  | nil => rw [List.map_nil, branchList, List.map_nil]
  | cons branch branches ih =>
    obtain ⟨first, others⟩ := List.forall_mem_cons.mp each
    rw [List.map_cons, Prod.map, branchList, first, ih others]
    rfl

theorem guarded_map_key {branches : List (Guard × Step)}
    (guards : ∀ branch ∈ branches, Guard.ofKey? branch.1.key = some branch.1) :
    guarded (branches.map (Prod.map Guard.key fun step => step)) = .ok branches := by
  induction branches with
  | nil => rfl
  | cons branch branches ih =>
    obtain ⟨first, others⟩ := List.forall_mem_cons.mp guards
    rw [List.map_cons, Prod.map, guarded, first]
    simp only [ih others]
    rfl

/-- A step is decoded from its written form. -/
theorem Decoded.ofJson_toJson {step : Step} (h : step.Decoded) (nested : Bool) :
    ofJson nested step.toJson = .ok step := by
  -- The induction is on what decoding leaves, which holds of the steps inside a step as well.
  induction h generalizing nested with
  | @say id message wording =>
    rw [Decoded.ofJson_toJson_eq (.say wording)]
    apply Reading.result_eq_ok.mpr
    refine (reads_idIn.map _).seq ?_
    show (Step.wording _ ⟨_ :: _ :: ([] ++ message.variants), none⟩).Reads message
    apply reads_wording wording <;> simp
  | @ask id message target wording =>
    rw [Decoded.ofJson_toJson_eq (.ask wording)]
    apply Reading.result_eq_ok.mpr
    refine ((reads_idIn.map _).seq (reads_wording wording (by simp) ?_)).seq ?_
    · rw [Table.forall_mem_entryIfSome]
      simp
    · apply Record.reads_orNone Json.str
      · have absent : Table.get? "variable" message.variants = none := wording.absent (by simp)
        simp [body, Table.get?, Table.get?_append, Table.get?_entryIfSome, absent]
      · rintro _ _ ⟨⟩
      · exact fun _ _ => rfl
  | @set id target value distinct =>
    rw [Decoded.ofJson_toJson_eq (.set distinct)]
    rfl
  | @switch id subject branches distinct each ih =>
    rw [Decoded.ofJson_toJson_eq (.switch distinct each)]
    have inside : branchesIn (Step.switch id subject branches).body = some (.ok branches) := by
      rw [branchesIn_eq]
      show some (Step.branches (.obj (branchEntries branches))) = _
      rw [Step.branches, branchEntries_eq_map,
        branchList_map (fun key => key) fun branch there => ih branch there true]
      simp
    rw [inside]
    rfl
  | @choose id branches guards each ih =>
    rw [Decoded.ofJson_toJson_eq (.choose guards each)]
    have inside : branchesIn (Step.choose id branches).body
        = some (.ok (branches.map (Prod.map Guard.key fun step => step))) := by
      rw [branchesIn_eq]
      show some (Step.branches (.obj (choiceEntries branches))) = _
      rw [Step.branches, choiceEntries_eq_map,
        branchList_map Guard.key fun branch there => ih branch there true]
    rw [inside]
    apply Reading.result_eq_ok.mpr
    refine (reads_idIn.map _).seq ?_
    show (Record.settled _ (some (guarded _)) _).Reads _
    rw [guarded_map_key guards]
    exact Record.reads_settled rfl
  | @callTool id call onFail called handler ih =>
    rw [Decoded.ofJson_toJson_eq (.callTool called handler)]
    apply Reading.result_eq_ok.mpr
    refine ((reads_idIn.map _).seq ?_).seq ?_
    · rw [body, handlerEntry_eq]
      exact reads_callIn called
    · exact reads_handler (get?_onFail_body id call onFail) fun step given => ih step given true
  | @callFlow id flow callType =>
    rw [Decoded.ofJson_toJson_eq .callFlow]
    cases callType <;> rfl

end Step

/-! ## The outline of written steps -/

namespace Outline

open Step (header body)

theorem checkBranches_of_each {flow : String} {entries : List (String × Json)}
    (each : ∀ entry ∈ entries, entry.2.asArr? = none ∧ checkStep flow entry.2 = .ok ()) :
    checkBranches flow entries = .ok () := by
  induction entries with
  | nil => rw [checkBranches]
  | cons entry entries ih =>
    obtain ⟨⟨single, first⟩, others⟩ := List.forall_mem_cons.mp each
    rw [checkBranches, single, first]
    exact ih others

theorem checkHandlerIn_eq (flow : String) (fields : List (String × Json)) :
    checkHandlerIn flow fields = (Table.get? "onFail" fields).elim (.ok ()) (checkStep flow) := by
  induction fields with
  | nil => simp [checkHandlerIn, Table.get?]
  | cons field fields ih =>
    obtain ⟨key, value⟩ := field
    unfold checkHandlerIn Table.get?
    split
    · rfl
    · exact ih

theorem checkBranches_map {κ : Type} (flow : String) (name : κ → String)
    {branches : List (κ × Step)}
    (each : ∀ branch ∈ branches, checkStep flow branch.2.toJson = .ok ()) :
    checkBranches flow (branches.map (Prod.map name Step.toJson)) = .ok () := by
  apply checkBranches_of_each
  intro entry there
  obtain ⟨branch, present, rfl⟩ := List.mem_map.mp there
  refine ⟨?_, each branch present⟩
  show branch.2.toJson.asArr? = none
  rw [Step.toJson_eq]
  rfl

theorem kindOf_toJson (flow : String) (step : Step) : kindOf flow step.toJson = .ok step.kind := by
  rw [Step.toJson_eq]
  cases step <;> rfl

/-- What is checked inside a written step. -/
theorem checkStep_toJson_eq (flow : String) (step : Step) :
    checkStep flow step.toJson = match step.kind with
      | .switch => checkBranchesIn flow .switch step.body
      | .choose => checkBranchesIn flow .choose step.body
      | .callTool => checkHandlerIn flow step.body
      | _ => .ok () := by
  rw [checkStep.eq_def, kindOf_toJson, Step.toJson_eq]
  cases step <;> simp [Step.kind, header, checkBranchesIn, checkHandlerIn]

/-- The outline of a written step is in order. -/
theorem checkStep_toJson (flow : String) {step : Step} (h : step.Decoded) :
    checkStep flow step.toJson = .ok () := by
  induction h with
  | @switch id subject branches _ _ ih =>
    rw [checkStep_toJson_eq]
    show checkBranches flow (Step.branchEntries branches) = .ok ()
    rw [Step.branchEntries_eq_map, checkBranches_map flow (fun key => key) ih]
  | @choose id branches _ _ ih =>
    rw [checkStep_toJson_eq]
    show checkBranches flow (Step.choiceEntries branches) = .ok ()
    rw [Step.choiceEntries_eq_map, checkBranches_map flow Guard.key ih]
  | @callTool id call onFail _ _ ih =>
    rw [checkStep_toJson_eq]
    show checkHandlerIn flow (Step.callTool id call onFail).body = .ok ()
    rw [checkHandlerIn_eq, Step.get?_onFail_body]
    cases onFail with
    | none => rfl
    | some step => exact ih step rfl
  | _ => rw [checkStep_toJson_eq]; rfl

end Outline

/-! ## Definitions -/

namespace Definition

/-- A definition as it is decoded. -/
structure Decoded (definition : Definition) : Prop where
  steps : ∀ step ∈ definition.steps, step.Decoded
  vars : (Json.obj definition.vars).KeysDistinct

/-- A definition that is read from a value without repeated keys has all that decoding leaves. -/
theorem Decoded.of_parse {value : Json} {definition : Definition} (distinct : value.KeysDistinct)
    (h : parse value = .ok definition) : definition.Decoded := by
  have decoded : decoder value = .ok definition := by
    unfold parse at h
    split at h
    · cases h
    · unfold decode at h
      cases result : decoder value with
      | error e => rw [result] at h; cases h
      | ok a => rw [result] at h; cases h; rfl
  obtain ⟨record, reads, entries⟩ := Record.exists_of_read decoded
  have entries := entries distinct
  simp only [Reading.reads_seq, Reading.reads_map] at reads
  obtain ⟨_, metadata, ⟨_, vars, ⟨_, steps, ⟨_, version, ⟨_, description, ⟨_, name, ⟨id, _, rfl⟩, _,
    rfl⟩, _, rfl⟩, _, rfl⟩, readSteps, rfl⟩, readVars, rfl⟩, _, rfl⟩ := reads
  constructor
  · obtain ⟨written, found, decoded⟩ := Record.reads_required.mp readSteps
    have distinct := entries _ (Table.mem_of_get? found)
    cases distinct with
    | arr each =>
      intro step there
      obtain ⟨item, present, decoded⟩ := Decoder.exists_of_each decoded step there
      exact Step.Decoded.of_ofJson (each item present) decoded
    | _ => cases decoded
  · rw [Record.reads_withDefault] at readVars
    cases found : Table.get? "variables" record.entries with
    | none =>
      rw [found] at readVars
      cases readVars
      exact .obj List.nodup_nil nofun
    | some written =>
      rw [found] at readVars
      have distinct := entries _ (Table.mem_of_get? found)
      cases distinct with
      | obj keys each =>
        cases readVars
        exact .obj keys each
      | _ => cases readVars

theorem checkSteps_map (flow : String) {steps : List Step} (h : ∀ step ∈ steps, step.Decoded) :
    Outline.checkSteps flow (steps.map Step.toJson) = .ok () := by
  induction steps with
  | nil => rfl
  | cons step steps ih =>
    obtain ⟨first, others⟩ := List.forall_mem_cons.mp h
    rw [List.map_cons, Outline.checkSteps, Outline.checkStep_toJson flow first]
    exact ih others

theorem metadata_toJson (metadata : Metadata) :
    Metadata.decoder metadata.toJson = .ok metadata := by
  obtain ⟨riskLevel, category⟩ := metadata
  cases riskLevel <;> cases category <;> rfl

/-- A definition is read from its written form. -/
theorem Decoded.parse_toJson {definition : Definition} (h : definition.Decoded) :
    parse definition.toJson = .ok definition := by
  have outline : Outline.checkFlow definition.toJson = .ok () := checkSteps_map _ h.steps
  have decoded : decoder definition.toJson = .ok definition := by
    apply Reading.result_eq_ok.mpr
    refine ((((((Reading.Reads.map ?_ Definition.mk).seq ?_).seq ?_).seq ?_).seq ?_).seq ?_).seq ?_
    · exact Record.reads_withDefault.mpr rfl
    · exact Record.reads_required.mpr ⟨_, rfl, rfl⟩
    · exact Record.reads_withDefault.mpr rfl
    · exact Record.reads_withDefault.mpr rfl
    · refine Record.reads_required.mpr ⟨_, rfl, ?_⟩
      exact Decoder.each_map fun step there => (h.steps step there).ofJson_toJson false
    · exact Record.reads_withDefault.mpr rfl
    · exact Record.reads_withDefault.mpr (metadata_toJson definition.metadata)
  rw [parse, outline]
  show (decoder definition.toJson).mapError _ = _
  rw [decoded]
  rfl

end Definition

end Parley
