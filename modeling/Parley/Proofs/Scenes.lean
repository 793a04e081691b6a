import Parley.Turn.Scene

/-!
# What the operations on scenes leave alone

A step builds its outcome from a few operations on its scene.  For each of them
the fields that it changes are told here, and that the frame goes on with the
flow it has.
-/

set_option autoImplicit false

namespace Parley

namespace Transaction

/-- A transaction takes records exactly while its state is active. -/
theorem isActive_iff {transaction : Transaction} :
    transaction.isActive = true ↔ transaction.state = .active := by
  simp [isActive]

/-- The transaction with further records. -/
def withRecords (transaction : Transaction) (records : List StepRecord) : Transaction :=
  { transaction with steps := transaction.steps ++ records }

@[simp] theorem state_withRecords (transaction : Transaction) (records : List StepRecord) :
    (transaction.withRecords records).state = transaction.state := rfl

@[simp] theorem withRecords_nil (transaction : Transaction) :
    transaction.withRecords [] = transaction := by
  simp [withRecords]

@[simp] theorem withRecords_withRecords (transaction : Transaction) (a b : List StepRecord) :
    (transaction.withRecords a).withRecords b = transaction.withRecords (a ++ b) := by
  simp [withRecords]

@[simp] theorem state_start (flowName initiator userId : String) :
    (start flowName initiator userId).state = .active := rfl

/-- An active transaction takes every record. -/
theorem log_of_active {transaction : Transaction} (hactive : transaction.state = .active)
    (record : StepRecord) :
    transaction.log record = .ok (transaction.withRecords [record.redacted]) := by
  simp [log, ifActive, isActive_iff.2 hactive, withRecords]

/-- An active transaction can be finished in every state. -/
theorem finish_of_active {transaction : Transaction} (hactive : transaction.state = .active)
    (state : TransactionState) (reason : Option String) :
    transaction.finish state reason =
      .ok { transaction with state := state, failureReason := reason, finished := true } := by
  simp [finish, ifActive, isActive_iff.2 hactive]

end Transaction

namespace Frame

/-- The frame with a record in its transaction. -/
def log (frame : Frame) (record : StepRecord) : Frame :=
  { frame with transaction := frame.transaction.withRecords [record] }

/-- A frame goes on with the same flow in the same scope: records and entries are only added. -/
structure Continues (before after : Frame) : Prop where
  flow : after.flowName = before.flowName
  scope : after.scope = before.scope
  records : ∃ records, after.transaction = before.transaction.withRecords records
  entries : ∃ entries, after.context = before.context ++ entries
  interruption : after.pendingInterruption = before.pendingInterruption
  replaced : after.replaced = before.replaced

namespace Continues

variable {before after : Frame}

theorem refl (frame : Frame) : frame.Continues frame :=
  ⟨rfl, rfl, ⟨[], by simp⟩, ⟨[], by simp⟩, rfl, rfl⟩

/-- The frame that goes on has a transaction in the same state. -/
theorem state (h : before.Continues after) :
    after.transaction.state = before.transaction.state := by
  obtain ⟨records, hrecords⟩ := h.records
  rw [hrecords, Transaction.state_withRecords]

theorem record (h : before.Continues after) (entry : Entry) :
    before.Continues (after.record entry) := by
  obtain ⟨entries, hentries⟩ := h.entries
  exact ⟨h.flow, h.scope, h.records, ⟨entries ++ [entry], by simp [Frame.record, hentries]⟩,
    h.interruption, h.replaced⟩

theorem log (h : before.Continues after) (record : StepRecord) :
    before.Continues (after.log record) := by
  obtain ⟨records, hrecords⟩ := h.records
  exact ⟨h.flow, h.scope, ⟨records ++ [record], by simp [Frame.log, hrecords]⟩, h.entries,
    h.interruption, h.replaced⟩

theorem popStep (h : before.Continues after) : before.Continues after.popStep :=
  ⟨h.flow, h.scope, h.records, h.entries, h.interruption, h.replaced⟩

theorem pushStep (h : before.Continues after) (step : Step) :
    before.Continues (after.pushStep step) :=
  ⟨h.flow, h.scope, h.records, h.entries, h.interruption, h.replaced⟩

theorem withPending (h : before.Continues after) (target : Option String) :
    before.Continues { after with pendingVariable := target } :=
  ⟨h.flow, h.scope, h.records, h.entries, h.interruption, h.replaced⟩

theorem withMessage (h : before.Continues after) (message : Option String) :
    before.Continues { after with lastMessage := message } :=
  ⟨h.flow, h.scope, h.records, h.entries, h.interruption, h.replaced⟩

theorem withResumed (h : before.Continues after) (resumed : Bool) :
    before.Continues { after with justResumed := resumed } :=
  ⟨h.flow, h.scope, h.records, h.entries, h.interruption, h.replaced⟩

end Continues

end Frame

namespace Scene

variable (scene : Scene)

/-- The scene with a record in the transaction of its frame. -/
def logging (record : StepRecord) : Scene :=
  scene.withFrame (scene.frame.log record.redacted)

@[simp] theorem frame_withFrame (frame : Frame) : (scene.withFrame frame).frame = frame := rfl

@[simp] theorem frame_tell (text : String) : (scene.tell text).frame = scene.frame := rfl

@[simp] theorem frame_store (name : String) (value : Json) :
    (scene.store name value).frame = scene.frame := rfl

@[simp] theorem frame_storeIn (name : Option String) (value : Json) :
    (scene.storeIn name value).frame = scene.frame := by
  cases name <;> rfl

@[simp] theorem frame_declare (flow : Definition) : (scene.declare flow).frame = scene.frame := rfl

@[simp] theorem frame_display (text : String) :
    (scene.display text).frame =
      { scene.frame.record (.assistant text) with lastMessage := some text } := rfl

@[simp] theorem frame_popStep : scene.popStep.frame = scene.frame.popStep := rfl

@[simp] theorem frame_pushStep (step : Step) :
    (scene.pushStep step).frame = scene.frame.pushStep step := rfl

@[simp] theorem frame_logging (record : StepRecord) :
    (scene.logging record).frame = scene.frame.log record.redacted := rfl

@[simp] theorem input_withFrame (frame : Frame) : (scene.withFrame frame).input = scene.input := rfl

@[simp] theorem input_tell (text : String) : (scene.tell text).input = scene.input := rfl

@[simp] theorem input_store (name : String) (value : Json) :
    (scene.store name value).input = scene.input := rfl

@[simp] theorem input_storeIn (name : Option String) (value : Json) :
    (scene.storeIn name value).input = scene.input := by
  cases name <;> rfl

@[simp] theorem input_declare (flow : Definition) : (scene.declare flow).input = scene.input := rfl

@[simp] theorem input_display (text : String) : (scene.display text).input = scene.input := rfl

@[simp] theorem input_popStep : scene.popStep.input = scene.input := rfl

@[simp] theorem input_pushStep (step : Step) : (scene.pushStep step).input = scene.input := rfl

@[simp] theorem input_logging (record : StepRecord) :
    (scene.logging record).input = scene.input := rfl

@[simp] theorem said_withFrame (frame : Frame) : (scene.withFrame frame).said = scene.said := rfl

@[simp] theorem said_tell (text : String) : (scene.tell text).said = scene.said ++ [text] := rfl

@[simp] theorem said_store (name : String) (value : Json) :
    (scene.store name value).said = scene.said := rfl

@[simp] theorem said_storeIn (name : Option String) (value : Json) :
    (scene.storeIn name value).said = scene.said := by
  cases name <;> rfl

@[simp] theorem said_popStep : scene.popStep.said = scene.said := rfl

@[simp] theorem said_pushStep (step : Step) : (scene.pushStep step).said = scene.said := rfl

@[simp] theorem said_logging (record : StepRecord) :
    (scene.logging record).said = scene.said := rfl

variable {scene}

/-- As long as the transaction is active, whatever shall follow a record does follow. -/
theorem logged_of_active (hactive : scene.frame.transaction.state = .active)
    (record : StepRecord) (next : Scene → Outcome) :
    scene.logged record next = next (scene.logging record) := by
  simp only [logged, Transaction.log_of_active hactive]
  rfl

/-- As long as the transaction is active, whatever shall follow a finished step does follow. -/
theorem finished_of_active (hactive : scene.frame.transaction.state = .active)
    (kind : StepKind) (id : String) (next : Scene → Outcome) :
    scene.finished kind id next =
      next (scene.popStep.logging (.plain id kind.name .success)) := by
  have hpopped : scene.popStep.frame.transaction.state = .active := hactive
  exact logged_of_active hpopped _ _

end Scene

end Parley
