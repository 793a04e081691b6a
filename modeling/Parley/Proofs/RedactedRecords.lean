import Parley.Proofs.Lineages
import Parley.Proofs.Records
import Parley.Proofs.RedactedValues

/-!
# Records hold no secrets

A transaction redacts the result and the error of every record that it takes, and
there is no other way for a record to get into a frame.  So whatever an engine makes
of a session, its records are those that were there before and records that
redaction leaves as they are.
-/

set_option autoImplicit false

namespace Parley

/-- Redaction leaves the result and the error of the record as they are. -/
structure StepRecord.Clean (record : StepRecord) : Prop where
  result : ∀ value ∈ record.result, Redaction.value value = value
  error : ∀ text ∈ record.error, Redaction.text text = text

theorem StepRecord.clean_redacted (record : StepRecord) : record.redacted.Clean := by
  constructor
  · intro value hvalue
    obtain ⟨given, -, rfl⟩ := Option.map_eq_some_iff.1 hvalue
    exact Redaction.value_value given
  · intro text htext
    obtain ⟨given, -, rfl⟩ := Option.map_eq_some_iff.1 htext
    exact Redaction.text_text given

/-- A transaction takes a record as it is after redaction. -/
theorem Transaction.steps_of_log {transaction after : Transaction} {record : StepRecord}
    (h : transaction.log record = .ok after) :
    after.steps = transaction.steps ++ [record.redacted] := by
  unfold log ifActive at h
  split at h
  · cases h
    rfl
  · cases h

namespace Frame

theorem records_of_isNew {frame : Frame} (h : frame.IsNew) : frame.records = [] := by
  obtain ⟨flow, scope, initiator, userId, rfl⟩ := h
  rfl

/-- A frame that goes on after an interruption has no records that it did not have before. -/
theorem records_resumed_subset (userId : String) (frame : Frame) :
    (Turn.resumed userId frame).records ⊆ frame.records := by
  unfold Turn.resumed
  split
  · exact List.Subset.refl _
  · simp only [records, Transaction.start, List.append_nil]
    exact List.subset_append_left _ _

/-- The records of a frame are those that it had before and clean ones. -/
theorem Becomes.records {first last : Frame} (h : first.Becomes last) :
    ∀ record ∈ last.records, record ∈ first.records ∨ record.Clean := by
  induction h with
  | same => exact fun record hrecord => .inl hrecord
  | edited _ _ htransaction hreplaced ih =>
      unfold Frame.records formerRecords at ih ⊢
      rwa [htransaction, hreplaced]
  | logged _ hlog ih =>
      intro record hrecord
      simp only [Frame.records, Transaction.steps_of_log hlog, ← List.append_assoc] at hrecord
      rcases List.mem_append.1 hrecord with hold | hnew
      · exact ih record hold
      · obtain rfl := List.mem_singleton.1 hnew
        exact .inr (StepRecord.clean_redacted _)
  | handed _ flow initiator userId hclosed ih =>
      intro record hrecord
      obtain ⟨closed, hfailed, hsteps⟩ :=
        Transaction.ifOpen_fail (Frame.transaction _) Stage.replacedReason
      cases hfailed.symm.trans hclosed
      apply ih
      simpa [Frame.records, formerRecords, handTo, Transaction.start, hsteps] using hrecord
  | paused _ ih =>
      unfold Frame.records at ih ⊢
      rwa [steps_paused]
  | resumed _ userId ih =>
      exact fun record hrecord => ih record (records_resumed_subset userId _ hrecord)

end Frame

namespace Session

/-- The records of all frames of the session. -/
def records (session : Session) : List StepRecord :=
  session.levels.frames.flatMap Frame.records

/-- A session leads to no other records than its own and clean ones. -/
theorem LeadsTo.records {before after : Session} (h : before.LeadsTo after) :
    ∀ record ∈ after.records, record ∈ before.records ∨ record.Clean := by
  intro record hrecord
  obtain ⟨frame, hframe, hrecord⟩ := List.mem_flatMap.1 hrecord
  obtain ⟨origin, hbecomes, horigin⟩ := h.frames frame hframe
  rcases hbecomes.records record hrecord with hold | hclean
  · rcases horigin with hthere | ⟨hnew, -⟩
    · exact .inl (List.mem_flatMap.2 ⟨origin, hthere, hold⟩)
    · rw [Frame.records_of_isNew hnew] at hold
      cases hold
  · exact .inr hclean

theorem LeadsTo.records_clean {before after : Session} (h : before.LeadsTo after)
    (hclean : ∀ record ∈ before.records, record.Clean) : ∀ record ∈ after.records, record.Clean :=
  fun record hrecord => (h.records record hrecord).elim (hclean record) fun hnew => hnew

end Session

namespace Engine

/-- Every session that an engine leads goes back to a new one. -/
theorem Reachable.records_clean {engine : Engine} {session : Session}
    (h : engine.Reachable session) : ∀ record ∈ session.records, record.Clean := by
  induction h with
  | start userId id => exact fun record hrecord => nomatch hrecord
  | next _ exchange ih => exact (next_leadsTo engine _ exchange).records_clean ih

end Engine

/-- Values that are the same but for what stands under keys of secrets are redacted to the same,
and redaction keeps all but those secrets and the tokens in strings.  What was redacted is not
changed by redacting it again.  So no handler leaves other records in its frame than clean ones and
those that were there, and in a session that an engine leads all records are clean, before every
exchange and in every round of it. -/
theorem secrets_redacted :
    (∀ a b, Redaction.Alike (· = ·) a b → Redaction.value a = Redaction.value b) ∧
    (∀ v, Redaction.value (Redaction.value v) = Redaction.value v ∧
      Redaction.Alike (fun s t => t = Redaction.text s) v (Redaction.value v)) ∧
    (∀ s, Redaction.text (Redaction.text s) = Redaction.text s) ∧
    (∀ stage step scene, ∀ record ∈ (Turn.perform stage step scene).scene.frame.records,
      record ∈ scene.frame.records ∨ record.Clean) ∧
    (∀ engine session exchanges exchange,
      let later := Engine.after engine session exchanges
      (∀ record ∈ later.records, record ∈ session.records ∨ record.Clean) ∧
      ∀ turn ∈ engine.trail later exchange, ∀ record ∈ turn.session.records,
        record ∈ session.records ∨ record.Clean) ∧
    ∀ engine session, Engine.Reachable engine session →
      (∀ record ∈ session.records, record.Clean) ∧
      ∀ exchange, ∀ turn ∈ engine.trail session exchange, ∀ record ∈ turn.session.records,
        record.Clean := by
  refine ⟨?_, ?_, Redaction.text_text, ?_, ?_, ?_⟩
  · intro a b halike
    exact Redaction.value_eq_iff.2 (halike.imp fun s t hsame => congrArg Redaction.text hsame)
  · exact fun v => ⟨Redaction.value_value v, Redaction.alike_value v⟩
  · exact fun stage step scene => (Turn.perform_descends stage step scene).frame.records
  · intro engine session exchanges exchange later
    have hafter : session.LeadsTo later := Engine.after_leadsTo engine session exchanges
    exact ⟨hafter.records, fun turn hturn => (hafter.trans (Engine.trail_leadsTo hturn)).records⟩
  · intro engine session hreachable
    have hclean := hreachable.records_clean
    exact ⟨hclean, fun exchange turn hturn => (Engine.trail_leadsTo hturn).records_clean hclean⟩

namespace Kiosk

/-- What is known about a user. -/
def account (password : String) : Json :=
  .obj [("user", .str "ann"), ("password", .str password)]

/-- A tool that looks up a user. -/
def directory : Tool where
  id := ""
  name := "find_user"
  description := ""
  parameters := .null
  implementation := .empty
  timeout := none

/-- An engine with a flow that looks up a user and then asks a question. -/
def office : Engine :=
  { engine with
    library := stocked [{ flow "Login" "" "" with
      steps := [.callTool "find" ⟨"find_user", some (.obj []), none, none, 0⟩ none,
        .ask "question" (.plain "Is it you?") (some "answer")] }]
    registry := ⟨[("find_user", directory)]⟩
    invoker := fun _ _ _ => .now (.ok (account "tiger")) }

/-- While the question waits for its answer, and in the round that asks it, the session has a record
of what the tool has returned. -/
theorem account_redacted :
    Redaction.value (account "tiger") = Redaction.value (account "lion") ∧
      let before := office.startSession "guest" "office"
      (∃ record ∈ (office.after before [guest "Login"]).records,
        record.result.isSome = true ∧ record.Clean) ∧
      ∃ turn ∈ office.trail before (guest "Login"), ∃ record ∈ turn.session.records,
        record.result.isSome = true ∧ record.Clean := by
  obtain ⟨hcomplete, -, -, -, hsince, hclean⟩ := secrets_redacted
  refine ⟨?_, ?_⟩
  · exact hcomplete _ _ (.obj (.shown (by decide +kernel) (.str rfl)
      (.secret _ _ (by decide +kernel) .nil)))
  · intro before
    have hstored : ((office.after before [guest "Login"]).records.any fun record =>
        record.result.isSome) = true := by decide +kernel
    have hlogged : ((office.trail before (guest "Login")).any fun turn =>
        turn.session.records.any fun record => record.result.isSome) = true := by decide +kernel
    obtain ⟨record, hrecord, hresult⟩ := List.any_eq_true.1 hstored
    obtain ⟨turn, hturn, hrecords⟩ := List.any_eq_true.1 hlogged
    obtain ⟨logged, hmem, hreturned⟩ := List.any_eq_true.1 hrecords
    refine ⟨⟨record, hrecord, hresult, ?_⟩, turn, hturn, logged, hmem, hreturned, ?_⟩
    · obtain ⟨hafter, -⟩ := hsince office before [guest "Login"] (guest "Login")
      rcases hafter record hrecord with hold | hnew
      · cases hold
      · exact hnew
    · exact (hclean office before (.start "guest" "office")).2 _ turn hturn logged hmem

end Kiosk

end Parley
