import Parley.Flow.Definition
import Parley.Proofs.Readings
import Parley.Proofs.Trimming

/-!
# Steps as they are decoded

Not every step has a value that it is decoded from.  Variants of a message are
sorted and have no name that a field has, the branches on a value have different
keys, the source of a condition is trimmed, and numbers fit their words.  A step
that is decoded from a value without repeated keys has these properties.
-/

set_option autoImplicit false

namespace Parley

namespace Text

theorem trimEnd_trimEnd (text : List Char) : trimEnd (trimEnd text) = trimEnd text := by
  simp [trimEnd, List.dropWhile_idempotent]

/-- A text that is trimmed again stays as it is. -/
theorem trim_trim (text : List Char) : trim (trim text) = trim text := by
  have stops := Token.stopsAt_dropWhile isBlank text
  unfold trim
  change Token.StopsAt isBlank (trimStart text) at stops
  cases start : trimStart text with
  | nil => rfl
  | cons c rest =>
    rw [start] at stops
    have visible : isBlank c = false := by simpa using stops
    have kept : trimEnd (c :: rest) = c :: trimEnd rest := trimEnd_append_cons [] visible rest
    have still : trimStart (trimEnd (c :: rest)) = trimEnd (c :: rest) := by
      rw [kept]
      simp [trimStart, visible]
    rw [still, trimEnd_trimEnd]

theorem after?_append (head text : List Char) : after? head (head ++ text) = some text := by
  induction head with
  | nil => rfl
  | cons c head ih => simpa [after?] using ih

end Text

namespace Guard

theorem key_injective : Function.Injective key := by
  intro a b h
  cases a <;> cases b <;>
    simp [key, conditionMark, otherwiseKey, String.ext_iff] at h ⊢
  exact h

/-- A trimmed condition is found again under the key that it is written as. -/
theorem ofKey?_condition {source : String} (h : Text.trim source.toList = source.toList) :
    ofKey? (condition source).key = some (condition source) := by
  have other : (condition source).key ≠ otherwiseKey := by
    simp [key, conditionMark, otherwiseKey, String.ext_iff]
  have text : (condition source).key.toList = conditionMark.toList ++ ' ' :: source.toList := by
    simp [key]
  have blank : Text.trim (' ' :: source.toList) = source.toList := h
  rw [ofKey?, if_neg other, text, Text.after?_append, Option.map_some, blank, String.ofList_toList]

/-- The guard of a key is the guard of the key that it is written as. -/
theorem ofKey?_key {text : String} {guard : Guard} (h : ofKey? text = some guard) :
    ofKey? guard.key = some guard := by
  unfold ofKey? at h
  split at h
  · cases h
    rfl
  · obtain ⟨source, _, rfl⟩ := Option.map_eq_some_iff.mp h
    apply ofKey?_condition
    rw [String.toList_ofList, Text.trim_trim]

end Guard

/-! ## What decoding leaves -/

/-- A message as it is decoded in a step with the given fields. -/
structure Wording.Decoded (declared : List String) (message : Wording) : Prop where
  ascending : Table.Ascending message.variants
  undeclared : ∀ variant ∈ message.variants, variant.1 ≠ Step.tagKey ∧ variant.1 ∉ declared
  distinct : ∀ variant ∈ message.variants, variant.2.KeysDistinct

/-- A call as it is decoded. -/
structure ToolCall.Decoded (call : ToolCall) : Prop where
  args : ∀ value ∈ call.args, value ≠ .null ∧ value.KeysDistinct
  retry : ∀ policy ∈ call.retry, RetryPolicy.decoder true policy.toJson = .ok policy
  retryCount : Decoder.halfWord (.nat call.retryCount) = .ok call.retryCount

/-- The entries of a step are plain: none has the name of the tag, and no value repeats a key. -/
structure Record.Plain (record : Record) : Prop where
  tagless : ∀ entry ∈ record.entries, entry.1 ≠ Step.tagKey
  distinct : ∀ entry ∈ record.entries, entry.2.KeysDistinct

namespace Step

/-- A step as it is decoded. -/
inductive Decoded : Step → Prop where
  | say {id : String} {message : Wording} (wording : message.Decoded ["id", "value", "prompt"]) :
    Decoded (.say id message)
  | ask {id : String} {message : Wording} {target : Option String}
      (wording : message.Decoded ["id", "value", "prompt", "variable"]) :
    Decoded (.ask id message target)
  | set {id target : String} {value : Json} (distinct : value.KeysDistinct) :
    Decoded (.set id target value)
  | switch {id subject : String} {branches : List (String × Step)}
      (distinct : (Table.keys branches).Nodup) (each : ∀ branch ∈ branches, Decoded branch.2) :
    Decoded (.switch id subject branches)
  | choose {id : String} {branches : List (Guard × Step)}
      (guards : ∀ branch ∈ branches, Guard.ofKey? branch.1.key = some branch.1)
      (each : ∀ branch ∈ branches, Decoded branch.2) :
    Decoded (.choose id branches)
  | callTool {id : String} {call : ToolCall} {onFail : Option Step} (called : call.Decoded)
      (handler : ∀ step ∈ onFail, Decoded step) :
    Decoded (.callTool id call onFail)
  | callFlow {id flow : String} {callType : CallType} : Decoded (.callFlow id flow callType)

/-! ## Decoding -/

section Fields

variable {record : Record}

theorem wording_decoded {declared : List String} {message : Wording} (plain : record.Plain)
    (h : (wording declared record).Reads message) : message.Decoded declared := by
  obtain ⟨base, _, rfl⟩ := Reading.reads_map.mp h
  have source {variant : String × Json} (there : variant ∈ Table.sorted textBelow
      (record.entries.filter fun entry => !(declared.contains entry.1))) :
      variant ∈ record.entries ∧ variant.1 ∉ declared := by
    simpa using List.mem_filter.mp (Table.mem_sorted there)
  exact {
    ascending := Table.ascending_sorted _
    undeclared := fun variant there =>
      ⟨plain.tagless variant (source there).1, (source there).2⟩
    distinct := fun variant there => plain.distinct variant (source there).1 }

theorem callIn_decoded {call : ToolCall} (plain : record.Plain) (h : (callIn record).Reads call) :
    call.Decoded := by
  simp only [callIn, Reading.reads_seq, Reading.reads_map] at h
  obtain ⟨_, count, ⟨_, retry, ⟨_, target, ⟨_, args, ⟨tool, _, rfl⟩, readArgs, rfl⟩, _, rfl⟩,
    readRetry, rfl⟩, readCount, rfl⟩ := h
  have retry := Record.restores_of_orNone RetryPolicy.restores_decoder readRetry
  have count := Record.restores_of_withDefault rfl (Decoder.restores_natural _) readCount
  refine ⟨?_, retry, count⟩
  intro value given
  cases given
  obtain ⟨_, found, nonnull, decoded⟩ := Record.exists_of_orNone readArgs
  cases decoded
  exact ⟨nonnull, plain.distinct _ (Table.mem_of_get? found)⟩

end Fields

theorem guarded_decoded {branches : List (String × Step)} {choices : List (Guard × Step)}
    (h : guarded branches = .ok choices) : ∀ choice ∈ choices,
      Guard.ofKey? choice.1.key = some choice.1 ∧ ∃ branch ∈ branches, branch.2 = choice.2 := by
  induction branches generalizing choices with
  | nil =>
    cases h
    simp
  | cons branch branches ih =>
    obtain ⟨key, step⟩ := branch
    unfold guarded at h
    split at h
    · rename_i guard meant
      cases rest : guarded branches with
      | error e => rw [rest] at h; cases h
      | ok others =>
        rw [rest] at h
        cases h
        intro choice there
        rcases List.mem_cons.mp there with rfl | there
        · exact ⟨Guard.ofKey?_key meant, _, List.mem_cons_self, rfl⟩
        · obtain ⟨same, source, present, eq⟩ := ih rest choice there
          exact ⟨same, source, List.mem_cons_of_mem _ present, eq⟩
    · cases h

/-- The step of a plain record is decoded if the steps inside it are. -/
theorem ofRecord_decoded {kind : StepKind} {parts : Parts} {record : Record} {step : Step}
    (plain : record.Plain)
    (branches : ∀ branches, parts.branches = some (.ok branches) →
      (Table.keys branches).Nodup ∧ ∀ branch ∈ branches, branch.2.Decoded)
    (handler : ∀ handler, parts.onFail = some (.ok (some handler)) → handler.Decoded)
    (h : (ofRecord kind parts record).Reads step) : step.Decoded := by
  cases kind with simp only [ofRecord, Reading.reads_seq, Reading.reads_map] at h
  | say =>
    obtain ⟨_, message, ⟨id, _, rfl⟩, read, rfl⟩ := h
    exact .say (wording_decoded plain read)
  | ask =>
    obtain ⟨_, target, ⟨_, message, ⟨id, _, rfl⟩, read, rfl⟩, _, rfl⟩ := h
    exact .ask (wording_decoded plain read)
  | set =>
    obtain ⟨_, value, ⟨_, target, ⟨id, _, rfl⟩, _, rfl⟩, read, rfl⟩ := h
    obtain ⟨_, found, decoded⟩ := Record.reads_required.mp read
    cases decoded
    exact .set (plain.distinct _ (Table.mem_of_get? found))
  | switch =>
    obtain ⟨_, entries, ⟨_, subject, ⟨id, _, rfl⟩, _, rfl⟩, read, rfl⟩ := h
    obtain ⟨distinct, each⟩ := branches entries (Record.eq_of_settled read)
    exact .switch distinct each
  | choose =>
    obtain ⟨_, choices, ⟨id, _, rfl⟩, read, rfl⟩ := h
    obtain ⟨outcome, given, chosen⟩ := Option.map_eq_some_iff.mp (Record.eq_of_settled read)
    cases outcome with
    | error e => cases chosen
    | ok entries =>
      have each := (branches entries given).2
      have source := guarded_decoded chosen
      refine .choose (fun choice there => (source choice there).1) ?_
      intro choice there
      obtain ⟨_, branch, present, eq⟩ := source choice there
      rw [← eq]
      exact each branch present
  | callTool =>
    obtain ⟨_, onFail, ⟨_, call, ⟨id, _, rfl⟩, called, rfl⟩, read, rfl⟩ := h
    refine .callTool (callIn_decoded plain called) ?_
    intro step given
    cases given
    exact handler step (Record.eq_of_settledOrNone read)
  | callFlow =>
    obtain ⟨_, callType, ⟨_, flow, ⟨id, _, rfl⟩, _, rfl⟩, _, rfl⟩ := h
    exact .callFlow

/-! ## The steps inside a step -/

theorem branchesIn_eq (fields : List (String × Json)) :
    branchesIn fields = (Table.get? "branches" fields).map branches := by
  induction fields with
  | nil => simp [branchesIn, Table.get?]
  | cons field fields ih =>
    obtain ⟨key, value⟩ := field
    unfold branchesIn Table.get?
    split
    · rfl
    · exact ih

theorem handlerIn_eq (fields : List (String × Json)) :
    handlerIn fields = (Table.get? "onFail" fields).map handler := by
  induction fields with
  | nil => simp [handlerIn, Table.get?]
  | cons field fields ih =>
    obtain ⟨key, value⟩ := field
    unfold handlerIn Table.get?
    split
    · rfl
    · exact ih

/-- Fields by their places are fields by their names. -/
theorem branchesAt_eq (names : List String) (items : List Json) :
    branchesAt names items = branchesIn (names.zip items) := by
  induction names generalizing items with
  | nil => simp [branchesAt, branchesIn]
  | cons name names ih => cases items <;> simp [branchesAt, branchesIn, ih]

theorem handlerAt_eq (names : List String) (items : List Json) :
    handlerAt names items = handlerIn (names.zip items) := by
  induction names generalizing items with
  | nil => simp [handlerAt, handlerIn]
  | cons name names ih => cases items <;> simp [handlerAt, handlerIn, ih]

theorem handler_eq_nullable (value : Json) :
    handler value = Decoder.nullable (ofJson true) value := by
  cases value <;> simp [handler, Decoder.nullable]

theorem branchList_decoded {entries : List (String × Json)} {steps : List (String × Step)}
    (h : branchList entries = .ok steps) : Table.keys steps = Table.keys entries ∧
      ∀ branch ∈ steps, ∃ entry ∈ entries, ofJson true entry.2 = .ok branch.2 := by
  induction entries generalizing steps with
  | nil =>
    rw [branchList] at h
    cases h
    simp [Table.keys]
  | cons entry entries ih =>
    obtain ⟨key, value⟩ := entry
    unfold branchList at h
    split at h
    · cases h
    · rename_i step decoded
      cases rest : branchList entries with
      | error e => rw [rest] at h; cases h
      | ok others =>
        rw [rest] at h
        cases h
        obtain ⟨keys, each⟩ := ih rest
        refine ⟨congrArg (key :: ·) keys, ?_⟩
        intro branch there
        rcases List.mem_cons.mp there with rfl | there
        · exact ⟨_, List.mem_cons_self, decoded⟩
        · obtain ⟨source, present, eq⟩ := each branch there
          exact ⟨source, List.mem_cons_of_mem _ present, eq⟩

/-- What holds of what an entry is decoded to holds of the branches among the entries. -/
theorem mem_of_branchesIn {fields : List (String × Json)} {steps : List (String × Step)}
    (h : branchesIn fields = some (.ok steps)) : ∃ field ∈ fields, branches field.2 = .ok steps := by
  rw [branchesIn_eq] at h
  obtain ⟨value, found, decoded⟩ := Option.map_eq_some_iff.mp h
  exact ⟨_, Table.mem_of_get? found, decoded⟩

theorem mem_of_handlerIn {fields : List (String × Json)} {step : Step}
    (h : handlerIn fields = some (.ok (some step))) :
    ∃ field ∈ fields, ofJson true field.2 = .ok step := by
  rw [handlerIn_eq] at h
  obtain ⟨value, found, decoded⟩ := Option.map_eq_some_iff.mp h
  rw [handler_eq_nullable] at decoded
  exact ⟨_, Table.mem_of_get? found, (Decoder.nullable_eq_ok decoded).2⟩

theorem tagKey_notMem_fieldNames (kind : StepKind) : tagKey ∉ kind.fieldNames := by
  cases kind <;> decide

/-- A step that is given by the places of its fields has the entries of those names. -/
theorem reads_of_ofItems {kind : StepKind} {parts : Parts} {items : List Json} {step : Step}
    (h : ofItems kind parts items = .ok step) : (ofRecord kind parts
      ⟨kind.fieldNames.zip items, some kind.fieldNames⟩).Reads step := by
  cases kind with
  | say | ask => cases h
  | _ => exact Record.reads_of_read_arr h

/-- What is decoded from a value without repeated keys, as a step or as branches. -/
theorem decoded_of_keysDistinct {value : Json} (h : value.KeysDistinct) :
    (∀ (nested : Bool) (step : Step), ofJson nested value = .ok step → step.Decoded) ∧
    (∀ steps, branches value = .ok steps →
      (Table.keys steps).Nodup ∧ ∀ branch ∈ steps, branch.2.Decoded) := by
  -- The branches of a step are decoded by a reader of their own, so the induction carries both.
  induction h with
  | null | bool | num | str => simp [ofJson, branches]
  | arr each ih =>
    rename_i items
    refine ⟨?_, by simp [branches]⟩
    intro nested step h
    cases items with
    | nil => simp [ofJson] at h
    | cons tag items =>
      rw [ofJson] at h
      obtain ⟨kind, _, h⟩ := exists_of_bind h
      have source : ∀ entry ∈ kind.fieldNames.zip items, entry.2 ∈ tag :: items := by
        intro entry there
        exact List.mem_cons_of_mem tag (List.of_mem_zip there).2
      apply ofRecord_decoded _ _ _ (reads_of_ofItems h)
      · refine ⟨?_, fun entry there => each entry.2 (source entry there)⟩
        intro entry there same
        exact tagKey_notMem_fieldNames kind (same ▸ (List.of_mem_zip there).1)
      · intro steps given
        rw [branchesAt_eq] at given
        obtain ⟨entry, there, decoded⟩ := mem_of_branchesIn given
        exact (ih entry.2 (source entry there)).2 steps decoded
      · intro handler given
        rw [handlerAt_eq] at given
        obtain ⟨entry, there, decoded⟩ := mem_of_handlerIn given
        exact (ih entry.2 (source entry there)).1 true handler decoded
  | obj distinct each ih =>
    rename_i fields
    constructor
    · intro nested step h
      rw [ofJson] at h
      split at h
      · cases h
      · obtain ⟨kind, _, h⟩ := exists_of_bind h
        apply ofRecord_decoded _ _ _ (Reading.result_eq_ok.mp h)
        · refine ⟨?_, ?_⟩
          · intro entry there
            simpa using (List.mem_filter.mp there).2
          · intro entry there
            exact each entry (List.mem_filter.mp there).1
        · intro steps given
          obtain ⟨entry, there, decoded⟩ := mem_of_branchesIn given
          exact (ih entry there).2 steps decoded
        · intro handler given
          obtain ⟨entry, there, decoded⟩ := mem_of_handlerIn given
          exact (ih entry there).1 true handler decoded
    · intro steps h
      rw [branches] at h
      obtain ⟨keys, source⟩ := branchList_decoded h
      rw [keys]
      refine ⟨distinct, ?_⟩
      intro branch there
      obtain ⟨entry, present, decoded⟩ := source branch there
      exact (ih entry present).1 true branch.2 decoded

/-- A step that is decoded from a value without repeated keys has all that decoding leaves. -/
theorem Decoded.of_ofJson {nested : Bool} {value : Json} {step : Step} (distinct : value.KeysDistinct)
    (h : ofJson nested value = .ok step) : step.Decoded :=
  (decoded_of_keysDistinct distinct).1 nested step h

end Step

end Parley
