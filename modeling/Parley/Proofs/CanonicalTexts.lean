import Parley.Proofs.KeptSteps
import Parley.Proofs.ValueTexts

/-!
# Texts that identify flows

Two flows with one canonical text are one flow.  The written form of a flow is a
value that the flow is read from again, and the text of a value tells the value
if its numbers are finite; those in a written flow are finite if those in the
value were that the flow was read from.
-/

set_option autoImplicit false

namespace Parley

namespace Json

theorem isFinite_nat (n : Nat) : (nat n).IsFinite :=
  .num trivial

theorem IsFinite.merged {value : Json} (h : value.IsFinite) : value.merged.IsFinite := by
  induction h with
  | null => exact .null
  | bool b => exact .bool b
  | num h => exact .num h
  | str s => exact .str s
  | arr _ ih =>
      rw [Json.merged, mergedItems_eq_map]
      exact .arr (List.forall_mem_map.2 ih)
  | @obj fields _ ih =>
      rw [Json.merged, mergedFields_eq_map]
      refine .obj fun field hfield => ?_
      obtain ⟨source, hsource, rfl⟩ := List.mem_map.1 (Table.mem_ofEntries hfield)
      exact ih source hsource

theorem IsFinite.get? {value inner : Json} {key : String} (h : value.IsFinite)
    (hfound : value.get? key = some inner) : inner.IsFinite := by
  cases h with
  | obj each => exact each _ (Table.mem_of_get? hfound)
  | _ => cases hfound

theorem IsFinite.items {items : List Json} (h : (Json.arr items).IsFinite) :
    ∀ item ∈ items, item.IsFinite := by
  cases h with
  | arr each => exact each

theorem IsFinite.fields {fields : List (String × Json)} (h : (Json.obj fields).IsFinite) :
    ∀ field ∈ fields, field.2.IsFinite := by
  cases h with
  | obj each => exact each

end Json

namespace RetryPolicy

theorem isFinite_toJson (policy : RetryPolicy) : policy.toJson.IsFinite := by
  have hnatOrNull : ∀ o : Option Nat, (natOrNull o).IsFinite := by
    intro o
    cases o with
    | none => exact .null
    | some n => exact Json.isFinite_nat n
  have hdelays : (Json.arr (policy.delays.map Json.nat)).IsFinite :=
    .arr (List.forall_mem_map.2 fun n _ => Json.isFinite_nat n)
  refine .obj (List.forall_mem_append.2 ⟨?_, ?_⟩)
  · simp [hnatOrNull, Json.IsFinite.str]
  · split <;> simp [hdelays]

end RetryPolicy

namespace Outline

open Step (ofRecord ofFields ofJson idIn wording callIn)

section Fields

variable {record : Record}

theorem wording_isFinite {declared : List String} {message : Wording}
    (hentries : ∀ entry ∈ record.entries, entry.2.IsFinite)
    (h : (wording declared record).Reads message) :
    ∀ variant ∈ message.variants, variant.2.IsFinite := by
  obtain ⟨base, _, rfl⟩ := Reading.reads_map.mp h
  intro variant hvariant
  exact hentries variant (List.mem_filter.1 (Table.mem_sorted hvariant)).1

theorem callIn_isFinite {call : ToolCall} (hentries : ∀ entry ∈ record.entries, entry.2.IsFinite)
    (h : (callIn record).Reads call) : ∀ entry ∈ call.entries, entry.2.IsFinite := by
  simp only [callIn, Reading.reads_seq, Reading.reads_map] at h
  obtain ⟨_, count, ⟨_, retry, ⟨_, target, ⟨_, args, ⟨tool, _, rfl⟩, hargs, rfl⟩, _, rfl⟩,
    _, rfl⟩, _, rfl⟩ := h
  simp only [ToolCall.entries, List.forall_mem_append, Table.forall_mem_entryIfSome]
  refine ⟨⟨⟨?_, ?_⟩, ?_⟩, ?_⟩
  · simp [Json.IsFinite.str]
  · rintro value ⟨⟩
    obtain ⟨_, hfound, _, hvalue⟩ := Record.exists_of_orNone hargs
    cases hvalue
    exact hentries _ (Table.mem_of_get? hfound)
  · intro value hvalue
    obtain ⟨name, _, rfl⟩ := Option.mem_map.1 hvalue
    exact .str name
  · intro value hvalue
    obtain ⟨policy, _, rfl⟩ := Option.mem_map.1 hvalue
    exact policy.isFinite_toJson

/-- The written form of a step is finite if the entries are that its own fields were read from, and
the written forms of the steps inside it. -/
theorem isFinite_toJson {kind : StepKind} {parts : Step.Parts} {step : Step}
    (hentries : ∀ entry ∈ record.entries, entry.2.IsFinite)
    (hinside : ∀ inner ∈ step.keyedInside, inner.2.toJson.IsFinite)
    (h : (ofRecord kind parts record).Reads step) : step.toJson.IsFinite := by
  rw [Step.toJson_eq]
  refine .obj (List.forall_mem_append.2 ⟨by simp [Step.header, Json.IsFinite.str], ?_⟩)
  cases kind with simp only [ofRecord, Reading.reads_seq, Reading.reads_map] at h
  | say =>
      obtain ⟨_, message, ⟨id, _, rfl⟩, hmessage, rfl⟩ := h
      exact List.forall_mem_cons.2 ⟨.str _, wording_isFinite hentries hmessage⟩
  | ask =>
      obtain ⟨_, target, ⟨_, message, ⟨id, _, rfl⟩, hmessage, rfl⟩, _, rfl⟩ := h
      refine List.forall_mem_cons.2 ⟨.str _, List.forall_mem_append.2 ⟨?_, ?_⟩⟩
      · rw [Table.forall_mem_entryIfSome]
        intro value hvalue
        obtain ⟨name, _, rfl⟩ := Option.mem_map.1 hvalue
        exact .str name
      · exact wording_isFinite hentries hmessage
  | set =>
      obtain ⟨_, value, ⟨_, target, ⟨id, _, rfl⟩, _, rfl⟩, hvalue, rfl⟩ := h
      obtain ⟨_, hfound, hread⟩ := Record.reads_required.1 hvalue
      cases hread
      simp [Step.body, Json.IsFinite.str, hentries _ (Table.mem_of_get? hfound)]
  | switch =>
      obtain ⟨_, branches, ⟨_, subject, ⟨id, _, rfl⟩, _, rfl⟩, _, rfl⟩ := h
      have hbranches : (Json.obj (Step.branchEntries branches)).IsFinite := by
        rw [Step.branchEntries_eq_map]
        exact .obj (List.forall_mem_map.2 hinside)
      simp [Step.body, Json.IsFinite.str, hbranches]
  | choose =>
      obtain ⟨_, branches, ⟨id, _, rfl⟩, _, rfl⟩ := h
      have hbranches : (Json.obj (Step.choiceEntries branches)).IsFinite := by
        rw [Step.choiceEntries_eq_map]
        exact .obj (List.forall_mem_map.2 fun branch hbranch =>
          hinside _ (List.mem_map_of_mem hbranch))
      simp [Step.body, hbranches]
  | callTool =>
      obtain ⟨_, onFail, ⟨_, call, ⟨id, _, rfl⟩, hcall, rfl⟩, _, rfl⟩ := h
      have hhandler : ∀ value ∈ onFail.map Step.toJson, value.IsFinite := by
        intro value hvalue
        obtain ⟨step, hstep, rfl⟩ := Option.mem_map.1 hvalue
        exact hinside (handlerKey, step) (by simpa [Step.keyedInside] using hstep)
      simp only [Step.body, List.forall_mem_append, Step.handlerEntry_eq,
        Table.forall_mem_entryIfSome, List.forall_mem_singleton]
      exact ⟨callIn_isFinite hentries hcall, hhandler, Json.isFinite_nat _⟩
  | callFlow =>
      obtain ⟨_, callType, ⟨_, flow, ⟨id, _, rfl⟩, _, rfl⟩, _, rfl⟩ := h
      simp [Step.body, Json.IsFinite.str]

end Fields

theorem isFinite_of_mem_inside {value inner : Json} (h : value.IsFinite)
    (hinner : inner ∈ inside value) : inner.IsFinite := by
  have hbranches : ∀ s ∈ ((branches? value).getD []).map Prod.snd, s.IsFinite := by
    intro s hs
    obtain ⟨entry, hentry, rfl⟩ := List.mem_map.1 hs
    cases hmap : branches? value with
    | none => simp [hmap] at hentry
    | some entries =>
        rw [hmap, Option.getD_some] at hentry
        exact (h.get? (get?_of_branches? hmap)).fields entry hentry
  unfold inside at hinner
  split at hinner
  · exact hbranches inner hinner
  · exact hbranches inner hinner
  · exact h.get? (Option.mem_toList.1 hinner)
  · cases hinner

theorem exists_of_forall₂ {α β : Type} {R : α → β → Prop} {as : List α} {bs : List β}
    (h : List.Forall₂ R as bs) : ∀ b ∈ bs, ∃ a ∈ as, R a b := by
  induction h with
  | nil => nofun
  | cons hfirst _ ih =>
      refine List.forall_mem_cons.2 ⟨⟨_, .head _, hfirst⟩, fun b hb => ?_⟩
      obtain ⟨a, ha, hrelated⟩ := ih b hb
      exact ⟨a, .tail _ ha, hrelated⟩

/-- A step that is read from a finite value, in which no step offends, is written as one. -/
theorem isFinite_of_ofJson {value : Json} {nested : Bool} {step : Step} (hfinite : value.IsFinite)
    (hnone : ∀ s ∈ stepsOf value, offends s = false) (h : ofJson nested value = .ok step) :
    step.toJson.IsFinite := by
  induction value using inside_induction generalizing nested step with
  | h value ih =>
    rw [stepsOf_eq] at hnone
    obtain ⟨hself, hdeep⟩ := List.forall_mem_cons.1 hnone
    have hdirect : ∀ inner ∈ inside value, ∀ s ∈ stepsOf inner, offends s = false :=
      fun inner hinner s hs => hdeep s (List.mem_flatMap.2 ⟨inner, hinner, hs⟩)
    obtain ⟨hkind, hread⟩ := readFrom_keyedInside hself
      (fun inner hinner => hdirect inner hinner inner (by rw [stepsOf_eq]; exact .head _)) h
    have hinside : ∀ inner ∈ step.keyedInside, inner.2.toJson.IsFinite := by
      intro branch hbranch
      obtain ⟨entry, hentry, -, hinner⟩ := exists_of_forall₂ hread branch hbranch
      have hmem : entry.2 ∈ inside value := by
        rw [inside_eq]
        exact List.mem_map_of_mem hentry
      exact ih entry.2 hmem (isFinite_of_mem_inside hfinite hmem) (hdirect entry.2 hmem) hinner
    cases value with
    | obj fields =>
        rw [ofJson_of_kind? hkind] at h
        refine isFinite_toJson (fun entry hentry => ?_) hinside (Reading.result_eq_ok.1 h)
        exact hfinite.fields entry (List.mem_filter.1 hentry).1
    | _ => cases hkind

end Outline

namespace Definition

open Outline (outermost)

theorem metadata_isFinite (metadata : Metadata) : metadata.toJson.IsFinite := by
  obtain ⟨riskLevel, category⟩ := metadata
  cases riskLevel <;> cases category <;>
    simp [Metadata.toJson, entryIfSome, Json.IsFinite.str, Json.IsFinite.obj]

theorem vars_isFinite {flow : Json} {definition : Definition} (hfinite : flow.IsFinite)
    (h : parse flow = .ok definition) : (Json.obj definition.vars).IsFinite := by
  obtain ⟨hcheck, hdecoder⟩ := exists_of_parse h
  cases flow with
  | obj fields =>
      have hvars := (reads_of_decoder hdecoder).2
      rw [Record.reads_withDefault] at hvars
      cases hfound : Table.get? "variables" fields with
      | none =>
          rw [hfound] at hvars
          rw [← show [] = definition.vars from hvars]
          exact .obj nofun
      | some value =>
          rw [hfound] at hvars
          have hvalue : value.IsFinite := hfinite.fields _ (Table.mem_of_get? hfound)
          cases value with
          | obj entries =>
              rw [← show entries = definition.vars from Except.ok.inj hvars]
              exact hvalue
          | _ => cases hvars
  | _ => cases hcheck

theorem isFinite_of_mem_outermost {flow item : Json} (h : flow.IsFinite)
    (hitem : item ∈ outermost flow) : item.IsFinite := by
  cases hsteps : (flow.get? "steps").bind Json.asArr? with
  | none => simp [outermost, hsteps] at hitem
  | some items =>
      obtain ⟨value, hfound, hvalue⟩ := Option.bind_eq_some_iff.1 hsteps
      obtain rfl : value = .arr items := by
        cases value <;> simp_all [Json.asArr?]
      rw [outermost, hsteps, Option.getD_some] at hitem
      exact (h.get? hfound).items item hitem

theorem steps_isFinite {flow : Json} {definition : Definition} (hfinite : flow.IsFinite)
    (h : parse flow = .ok definition) : ∀ step ∈ definition.steps, step.toJson.IsFinite := by
  intro step hstep
  obtain ⟨item, hitem, hnone, hread⟩ := Outline.exists_of_forall₂ (forall₂_of_parse h) step hstep
  exact Outline.isFinite_of_ofJson (isFinite_of_mem_outermost hfinite hitem) hnone hread

/-- A flow that is read from a finite value is written as one. -/
theorem isFinite_of_parse {flow : Json} {definition : Definition} (hfinite : flow.IsFinite)
    (h : parse flow = .ok definition) : definition.toJson.IsFinite := by
  have hsteps : (Json.arr (definition.steps.map Step.toJson)).IsFinite :=
    .arr (List.forall_mem_map.2 (steps_isFinite hfinite h))
  have hvars := vars_isFinite hfinite h
  exact .obj (by simp [Json.IsFinite.str, hsteps, hvars, metadata_isFinite])

/-- Flows that are read from values with finite numbers are told by their canonical texts.  So they
are told by their fingerprints if the digests of these texts do not collide. -/
theorem canonicalText_identifies {v w : Json} {d e : Definition} (hv : v.IsFinite)
    (hw : w.IsFinite) (hd : parse v.merged = .ok d) (he : parse w.merged = .ok e) :
    (d.canonicalText = e.canonicalText → d = e) ∧
      ((Sha256.ofString d.canonicalText = Sha256.ofString e.canonicalText →
        d.canonicalText = e.canonicalText) → d.fingerprint = e.fingerprint → d = e) := by
  have hidentifies : d.canonicalText = e.canonicalText → d = e := by
    intro htext
    have hjson := Json.text_injective (isFinite_of_parse hv.merged hd)
      (isFinite_of_parse hw.merged he) htext
    have hread := (Decoded.of_parse (Json.keysDistinct_merged v) hd).parse_toJson
    rw [hjson, (Decoded.of_parse (Json.keysDistinct_merged w) he).parse_toJson] at hread
    exact (Except.ok.inj hread).symm
  exact ⟨hidentifies, fun hapart hsame => hidentifies (hapart hsame)⟩

end Definition

namespace Kiosk

/-- A flow with one step of the given type, which grants a discount. -/
def remark (discount : Number) (type : String) : Json :=
  .obj [("name", .str "Remark"), ("variables", .obj [("discount", .num discount)]),
    ("steps", .arr [.obj
      [("type", .str type), ("value", .str "Hello"), ("variable", .str "guest")]])]

/-- The flow whose only step is the given one. -/
def remarked (discount : Number) (step : Step) : Definition where
  id := ""
  name := "Remark"
  description := ""
  version := ""
  steps := [step]
  vars := [("discount", .num discount)]
  metadata := .empty

/-- A message with a variant that has the name of a field. -/
def hinted : Step :=
  .say "" ⟨"Hello", [("variable", .str "guest")]⟩

/-- A question with that field. -/
def prompted : Step :=
  .ask "" (.plain "Hello") (some "guest")

theorem parse_remark (discount : Number) :
    Definition.parse (remark discount "SAY").merged = .ok (remarked discount hinted) ∧
      Definition.parse (remark discount "SAY-GET").merged = .ok (remarked discount prompted) :=
  ⟨by cbv, by cbv⟩

theorem remark_isFinite {discount : Number} (h : discount.IsFinite) (type : String) :
    (remark discount type).IsFinite := by
  have hvars : (Json.obj [("discount", .num discount)]).IsFinite :=
    .obj (by simp [Json.IsFinite.num h])
  have hsteps : (Json.arr [.obj [("type", .str type), ("value", .str "Hello"),
      ("variable", .str "guest")]]).IsFinite :=
    .arr (by simp [Json.IsFinite.obj, Json.IsFinite.str])
  exact .obj (by simp [hvars, hsteps, Json.IsFinite.str])

/-- A message with a variant that has the name of a field, and a question with that field, have
different texts. -/
theorem remarks_told_apart : (remarked (.float 0.5) hinted).canonicalText
    ≠ (remarked (.float 0.5) prompted).canonicalText := by
  intro htext
  have hdiscount : (Number.float 0.5).IsFinite := rfl
  obtain ⟨hhinted, hasked⟩ := parse_remark (.float 0.5)
  have hsame := (Definition.canonicalText_identifies (remark_isFinite hdiscount "SAY")
    (remark_isFinite hdiscount "SAY-GET") hhinted hasked).1 htext
  exact absurd (congrArg Definition.steps hsame) (by simp [remarked, hinted, prompted])

end Kiosk

end Parley
