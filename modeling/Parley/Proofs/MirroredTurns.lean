import Parley.Proofs.Conversations
import Parley.Proofs.Mirroring
import Parley.Proofs.Tasks

/-!
# Turns that mirror each other

A turn mirrors another one if its levels are the same under a renaming of scopes,
each of its frames finds the variables that its counterpart finds, and the past of
both is answered alike.  Scopes that no frame refers to, the entries that came while
no flow was in progress and the last entry may differ.  Whatever is done with two such
turns leaves two such turns, so that nobody can tell the two conversations apart.
-/

set_option autoImplicit false

namespace Parley

namespace Levels

/-! ## Levels -/

/-- The levels with all frames renamed. -/
def renamed (rename : Nat → Nat) (levels : Levels) : Levels :=
  ⟨levels.current.map (Frame.renamed rename),
    levels.suspended.map fun level => level.map (Frame.renamed rename)⟩

section Renamed

variable (rename : Nat → Nat) (levels : Levels)

theorem frames_renamed :
    (levels.renamed rename).frames = levels.frames.map (Frame.renamed rename) := by
  simp [frames, inward, renamed, List.map_flatten]

theorem top?_renamed : (levels.renamed rename).top? = levels.top?.map (Frame.renamed rename) := by
  simp [top?, renamed]

theorem modifyTop_renamed {change : Frame → Frame}
    (hchange : ∀ frame, change (frame.renamed rename) = (change frame).renamed rename) :
    (levels.renamed rename).modifyTop change = (levels.modifyTop change).renamed rename := by
  obtain ⟨current, suspended⟩ := levels
  cases current with
  | nil => rfl
  | cons frame callers => simp [modifyTop, renamed, hchange]

variable {rename levels} in
theorem renamed_congr {other : Nat → Nat}
    (h : ∀ frame ∈ levels.frames, other frame.scope = rename frame.scope) :
    levels.renamed other = levels.renamed rename := by
  have hsame : ∀ frame ∈ levels.frames, frame.renamed other = frame.renamed rename := by
    intro frame hframe
    simp [Frame.renamed, h frame hframe]
  unfold renamed
  congr 1
  · apply List.map_congr_left
    intro frame hframe
    exact hsame frame (mem_frames.2 (.inl hframe))
  · apply List.map_congr_left
    intro level hlevel
    apply List.map_congr_left
    intro frame hframe
    exact hsame frame (mem_frames.2 (.inr ⟨level, hlevel, hframe⟩))

theorem leave_renamed :
    (levels.renamed rename).leave = levels.leave.map fun left =>
      (left.1.renamed rename, left.2.map (Frame.renamed rename)) := by
  obtain ⟨current, suspended⟩ := levels
  cases suspended with
  | nil => rfl
  | cons level below => rfl

variable {levels} in
theorem mem_of_leave {left : Levels × Level} (h : levels.leave = .ok left) {frame : Frame}
    (hframe : frame ∈ left.1.frames) : frame ∈ levels.frames := by
  obtain ⟨current, suspended⟩ := levels
  cases suspended with
  | nil => cases h
  | cons level below =>
      cases h
      exact List.mem_append_right current hframe

end Renamed

/-- The frames of the levels find the same variables in `b` under their new numbers as in `a` under
the old ones, different scopes stay different, and all of them are numbered below the next one. -/
structure Renaming (rename : Nat → Nat) (levels : Levels) (a b : Scopes) : Prop where
  same : ∀ f ∈ levels.frames, b.get? (rename f.scope) = a.get? f.scope
  injective : ∀ f ∈ levels.frames, ∀ g ∈ levels.frames,
    rename f.scope = rename g.scope → f.scope = g.scope
  old : ∀ f ∈ levels.frames, f.scope < a.nextId
  new : ∀ f ∈ levels.frames, rename f.scope < b.nextId

namespace Renaming

variable {rename : Nat → Nat} {levels after : Levels} {a b : Scopes}

/-- No frames have nothing to find. -/
theorem empty (rename : Nat → Nat) (a b : Scopes) : Renaming rename .empty a b := by
  have hnone : ∀ f, f ∉ Levels.empty.frames := fun f => List.not_mem_nil
  exact ⟨fun f hf => absurd hf (hnone f), fun f hf => absurd hf (hnone f),
    fun f hf => absurd hf (hnone f), fun f hf => absurd hf (hnone f)⟩

/-- The levels may change as long as all frames stand in scopes that were there. -/
theorem of_scopes (h : levels.Renaming rename a b)
    (hscopes : ∀ f ∈ after.frames, ∃ g ∈ levels.frames, f.scope = g.scope) :
    after.Renaming rename a b := by
  constructor
  · intro f hf
    obtain ⟨g, hg, hscope⟩ := hscopes f hf
    rw [hscope]
    exact h.same g hg
  · intro f hf f' hf' heq
    obtain ⟨g, hg, hscope⟩ := hscopes f hf
    obtain ⟨g', hg', hscope'⟩ := hscopes f' hf'
    rw [hscope, hscope'] at heq ⊢
    exact h.injective g hg g' hg' heq
  · intro f hf
    obtain ⟨g, hg, hscope⟩ := hscopes f hf
    rw [hscope]
    exact h.old g hg
  · intro f hf
    obtain ⟨g, hg, hscope⟩ := hscopes f hf
    rw [hscope]
    exact h.new g hg

/-- The variables of a frame may change in both. -/
theorem put (h : levels.Renaming rename a b) {frame : Frame} (hframe : frame ∈ levels.frames)
    (vars : Fields) :
    levels.Renaming rename (a.put frame.scope vars) (b.put (rename frame.scope) vars) := by
  refine ⟨?_, h.injective, h.old, h.new⟩
  intro f hf
  by_cases hscope : f.scope = frame.scope
  · rw [hscope, Scopes.get?_put_self, Scopes.get?_put_self]
  · have hrenamed : rename f.scope ≠ rename frame.scope := fun heq =>
      hscope (h.injective f hf frame hframe heq)
    rw [Scopes.get?_put_of_ne vars hscope, Scopes.get?_put_of_ne vars hrenamed]
    exact h.same f hf

/-- A flow that is started in both gets a new scope in both, and the renaming takes one to the
other. -/
theorem push (h : levels.Renaming rename a b) {frame : Frame} (hscope : frame.scope = a.nextId)
    (vars : Fields) :
    (levels.push frame).Renaming (Function.update rename a.nextId b.nextId)
      (a.allocate vars).1 (b.allocate vars).1 := by
  have hold : ∀ f ∈ levels.frames, Function.update rename a.nextId b.nextId f.scope =
      rename f.scope := fun f hf =>
    Function.update_of_ne (Nat.ne_of_lt (h.old f hf)) _ _
  have hnew : Function.update rename a.nextId b.nextId frame.scope = b.nextId := by
    rw [hscope, Function.update_self]
  have hcases : ∀ {P : Frame → Prop}, P frame → (∀ f ∈ levels.frames, P f) →
      ∀ f ∈ (levels.push frame).frames, P f := by
    intro P hframe hothers f hf
    rcases List.mem_cons.1 hf with rfl | hother
    · exact hframe
    · exact hothers f hother
  constructor
  · apply hcases
    · rw [hnew, hscope]
      exact (Scopes.get?_put_self b b.nextId vars).trans (Scopes.get?_put_self a a.nextId vars).symm
    · intro f hf
      rw [hold f hf, Scopes.get?_allocate_of_lt vars (h.new f hf),
        Scopes.get?_allocate_of_lt vars (h.old f hf)]
      exact h.same f hf
  · apply hcases
    · apply hcases
      · exact fun _ => rfl
      · intro g hg heq
        rw [hnew, hold g hg] at heq
        exact absurd heq (Nat.ne_of_gt (h.new g hg))
    · intro f hf
      apply hcases
      · intro heq
        rw [hnew, hold f hf] at heq
        exact absurd heq (Nat.ne_of_lt (h.new f hf))
      · intro g hg heq
        rw [hold f hf, hold g hg] at heq
        exact h.injective f hf g hg heq
  · apply hcases
    · rw [hscope]
      exact Nat.lt_succ_self _
    · intro f hf
      exact Nat.lt_succ_of_lt (h.old f hf)
  · apply hcases
    · rw [hnew]
      exact Nat.lt_succ_self _
    · intro f hf
      rw [hold f hf]
      exact Nat.lt_succ_of_lt (h.new f hf)

/-- The scopes that no frame refers to may be dropped in both. -/
theorem collect (h : levels.Renaming rename a b) :
    levels.Renaming rename (a.retain (levels.frames.map Frame.scope))
      (b.retain ((levels.renamed rename).frames.map Frame.scope)) := by
  refine ⟨?_, h.injective, h.old, h.new⟩
  intro f hf
  have hlive : (levels.frames.map Frame.scope).contains f.scope = true :=
    List.contains_iff_mem.2 (List.mem_map_of_mem hf)
  have hrenamed : ((levels.renamed rename).frames.map Frame.scope).contains (rename f.scope) =
      true := by
    rw [frames_renamed, List.map_map]
    exact List.contains_iff_mem.2 (List.mem_map_of_mem (f := Frame.scope ∘ Frame.renamed rename) hf)
  rw [Scopes.get?_retain, Scopes.get?_retain, if_pos hlive, if_pos hrenamed]
  exact h.same f hf

end Renaming

end Levels

/-! ## Sessions -/

/-- The other session is this one with its levels renamed, and with scopes that hold the same
variables for them. -/
inductive Session.Mirrors (rename : Nat → Nat) (a : Session) : Session → Prop where
  | intro (scopes : Scopes) (lastEntry : Option Entry) (history : List Entry)
      (h : a.levels.Renaming rename a.scopes scopes) :
      Mirrors rename a
        { a with
          levels := a.levels.renamed rename
          scopes := scopes
          lastEntry := lastEntry
          history := history }

/-- Two sessions are the same but for the numbers of their scopes, scopes that no frame refers to,
and the entries that belong to no flow. -/
def Session.Resembles (a b : Session) : Prop :=
  ∃ rename, a.Mirrors rename b

namespace Session.Mirrors

variable {rename : Nat → Nat} {a b : Session}

theorem top? (h : a.Mirrors rename b) :
    b.levels.top? = a.levels.top?.map (Frame.renamed rename) := by
  obtain ⟨scopes, lastEntry, history, h⟩ := h
  exact a.levels.top?_renamed rename

/-- The levels may change as long as no frame gets into a scope that was not there. -/
theorem withLevels (h : a.Mirrors rename b) (change : Levels → Levels)
    (hrenamed : ∀ levels : Levels,
      change (levels.renamed rename) = (change levels).renamed rename)
    (hscopes : ∀ levels : Levels, ∀ f ∈ (change levels).frames,
      ∃ g ∈ levels.frames, f.scope = g.scope) :
    ({ a with levels := change a.levels } : Session).Mirrors rename
      { b with levels := change b.levels } := by
  obtain ⟨scopes, lastEntry, history, h⟩ := h
  simp only [hrenamed]
  exact .intro scopes lastEntry history (h.of_scopes (hscopes a.levels))

theorem modifyTop (h : a.Mirrors rename b) (change : Frame → Frame)
    (hrenamed : ∀ frame : Frame, change (frame.renamed rename) = (change frame).renamed rename)
    (hscope : ∀ frame : Frame, (change frame).scope = frame.scope) :
    ({ a with levels := a.levels.modifyTop change } : Session).Mirrors rename
      { b with levels := b.levels.modifyTop change } := by
  apply h.withLevels (Levels.modifyTop · change)
    (fun levels => levels.modifyTop_renamed rename hrenamed)
  intro levels f hf
  rw [Levels.modifyTop_eq] at hf
  rcases Levels.mem_frames.1 hf with hcurrent | hsuspended
  · rcases Levels.mem_modifyHead hcurrent with ⟨top, htop, rfl⟩ | hcallers
    · exact ⟨top, Levels.mem_frames.2 (.inl (List.mem_of_head? htop)), hscope top⟩
    · exact ⟨f, Levels.mem_frames.2 (.inl (List.mem_of_mem_tail hcallers)), rfl⟩
  · exact ⟨f, Levels.mem_frames.2 (.inr hsuspended), rfl⟩

theorem note (h : a.Mirrors rename b) (entry : Entry) :
    (a.note entry).Mirrors rename (b.note entry) := by
  unfold Session.note
  rw [h.top?]
  cases a.levels.top? with
  | some frame => exact h.modifyTop (Frame.record · entry) (fun _ => rfl) fun _ => rfl
  | none =>
      obtain ⟨scopes, lastEntry, history, h⟩ := h
      exact .intro scopes _ _ h

theorem hear (h : a.Mirrors rename b) (entry : Entry) :
    (a.hear entry).Mirrors rename (b.hear entry) := by
  have hnoted := h.note entry
  unfold Session.hear
  generalize a.note entry = noted at hnoted ⊢
  generalize b.note entry = other at hnoted ⊢
  obtain ⟨scopes, lastEntry, history, h⟩ := hnoted
  exact .intro scopes _ _ h

theorem tell (h : a.Mirrors rename b) (text : String) :
    (a.tell text).Mirrors rename (b.tell text) := by
  obtain ⟨scopes, lastEntry, history, h⟩ := h
  exact .intro scopes lastEntry history h

theorem collectScopes (h : a.Mirrors rename b) :
    a.collectScopes.Mirrors rename b.collectScopes := by
  obtain ⟨scopes, lastEntry, history, h⟩ := h
  exact .intro _ lastEntry history h.collect

theorem flush (h : a.Mirrors rename b) :
    a.flush.1.Mirrors rename b.flush.1 ∧ b.flush.2 = a.flush.2 := by
  obtain ⟨scopes, lastEntry, history, h⟩ := h
  unfold Session.flush
  simp only
  split
  · exact ⟨.intro scopes lastEntry history h, rfl⟩
  · exact ⟨.intro scopes lastEntry history h, rfl⟩

end Session.Mirrors

/-! ## Turns -/

/-- The other turn has a session that mirrors that of this one, after a journal that is answered
alike. -/
inductive Turn.Mirrors (engine : Engine) (rename : Nat → Nat) (a : Turn) : Turn → Prop where
  | intro (session : Session) (journal : Journal) (h : a.session.Mirrors rename session)
      (hjournal : engine.AnswersAlike a.journal journal) :
      Mirrors engine rename a { a with session := session, journal := journal }

/-- One of two turns mirrors the other under some renaming. -/
def Turn.Resembles (engine : Engine) (a b : Turn) : Prop :=
  ∃ rename, a.Mirrors engine rename b

/-- Both are answered with the same response, or both run, with turns that resemble each other. -/
inductive Opening.Resembles (engine : Engine) : Opening → Opening → Prop where
  | answered {a b : Turn} (response : Option String) (h : a.Resembles engine b) :
      Resembles engine (.answered a response) (.answered b response)
  | running {a b : Turn} (h : a.Resembles engine b) : Resembles engine (.running a) (.running b)

/-- Both go on or both end, with turns that resemble each other. -/
inductive Turn.Round.Resembles (engine : Engine) : Round → Round → Prop where
  | onward {a b : Turn} (h : a.Resembles engine b) : Resembles engine (.onward a) (.onward b)
  | ended {a b : Turn} (h : a.Resembles engine b) : Resembles engine (.ended a) (.ended b)

/-- The task with its frame renamed. -/
def Turn.Task.renamed (rename : Nat → Nat) : Task → Task
  | .complete frame => .complete (frame.renamed rename)
  | .dispatch frame step => .dispatch (frame.renamed rename) step
  | task => task

namespace Turn.Mirrors

variable {engine : Engine} {rename : Nat → Nat} {a b : Turn}

theorem session (h : a.Mirrors engine rename b) : a.session.Mirrors rename b.session := by
  obtain ⟨session, journal, h, hjournal⟩ := h
  exact h

theorem journal (h : a.Mirrors engine rename b) : engine.AnswersAlike a.journal b.journal := by
  obtain ⟨session, journal, h, hjournal⟩ := h
  exact hjournal

theorem start {before other : Session} (h : before.Mirrors rename other) {journal past : Journal}
    (hjournal : engine.AnswersAlike journal past) (input : Option String) :
    (Turn.start before journal input).Mirrors engine rename (Turn.start other past input) :=
  .intro other past h hjournal

/-- A change of the sessions that leaves one the mirror of the other. -/
theorem withSession (h : a.Mirrors engine rename b) {left right : Session} {other : Nat → Nat}
    (hsession : left.Mirrors other right) :
    (a.withSession left).Mirrors engine other (b.withSession right) := by
  obtain ⟨session, journal, h, hjournal⟩ := h
  exact .intro right journal hsession hjournal

theorem withLevels (h : a.Mirrors engine rename b) (change : Levels → Levels)
    (hrenamed : ∀ levels : Levels,
      change (levels.renamed rename) = (change levels).renamed rename)
    (hscopes : ∀ levels : Levels, ∀ f ∈ (change levels).frames,
      ∃ g ∈ levels.frames, f.scope = g.scope) :
    (a.withLevels (change a.session.levels)).Mirrors engine rename
      (b.withLevels (change b.session.levels)) :=
  h.withSession (h.session.withLevels change hrenamed hscopes)

theorem modifyTop (h : a.Mirrors engine rename b) (change : Frame → Frame)
    (hrenamed : ∀ frame : Frame, change (frame.renamed rename) = (change frame).renamed rename)
    (hscope : ∀ frame : Frame, (change frame).scope = frame.scope) :
    (a.modifyTop change).Mirrors engine rename (b.modifyTop change) :=
  h.withSession (h.session.modifyTop change hrenamed hscope)

theorem tell (h : a.Mirrors engine rename b) (text : String) :
    (a.tell text).Mirrors engine rename (b.tell text) :=
  h.withSession (h.session.tell text)

theorem withoutInput (h : a.Mirrors engine rename b) :
    a.withoutInput.Mirrors engine rename b.withoutInput := by
  obtain ⟨session, journal, h, hjournal⟩ := h
  exact .intro session journal h hjournal

theorem withJournal (h : a.Mirrors engine rename b) {journal past : Journal}
    (hjournal : engine.AnswersAlike journal past) :
    ({ a with journal := journal } : Turn).Mirrors engine rename { b with journal := past } := by
  obtain ⟨session, other, h, -⟩ := h
  exact .intro session past h hjournal

theorem charged (h : a.Mirrors engine rename b) : a.charged.Mirrors engine rename b.charged := by
  obtain ⟨session, journal, h, hjournal⟩ := h
  exact .intro session journal h hjournal

/-- A flow that is started in both turns has the same variables in both. -/
theorem activate (h : a.Mirrors engine rename b) (flow : Definition) (initiator : String) :
    (a.activate flow initiator).Resembles engine (b.activate flow initiator) := by
  obtain ⟨_, journal, ⟨scopes, lastEntry, history, h⟩, hjournal⟩ := h
  refine ⟨Function.update rename a.session.scopes.nextId scopes.nextId, ?_⟩
  let frame := Frame.start flow a.session.scopes.nextId
    (.start flow.name initiator a.session.userId)
  have hscope : frame.scope = a.session.scopes.nextId := rfl
  have hpushed := h.push hscope (Table.overlay flow.vars a.session.globals)
  have hkept : a.session.levels.renamed
      (Function.update rename a.session.scopes.nextId scopes.nextId) =
        a.session.levels.renamed rename :=
    Levels.renamed_congr fun f hf => Function.update_of_ne (Nat.ne_of_lt (h.old f hf)) _ _
  have hlevels : (a.session.levels.push frame).renamed
      (Function.update rename a.session.scopes.nextId scopes.nextId) =
        (a.session.levels.renamed rename).push
          (.start flow scopes.nextId (.start flow.name initiator a.session.userId)) := by
    rw [← hkept]
    simp [Levels.push, Levels.renamed, Frame.renamed, frame, Frame.start]
  show (a.activate flow initiator).Mirrors engine _
    { a with
      session :=
        { a.session with
          levels := (a.session.levels.renamed rename).push
            (.start flow scopes.nextId (.start flow.name initiator a.session.userId))
          scopes := (scopes.allocate (Table.overlay flow.vars a.session.globals)).1
          lastEntry := lastEntry
          history := history }
      journal := journal }
  rw [← hlevels]
  exact .intro _ journal (.intro _ lastEntry history hpushed) hjournal

theorem task (h : a.Mirrors engine rename b) : b.task engine = (a.task engine).renamed rename := by
  obtain ⟨_, journal, ⟨scopes, lastEntry, history, h⟩, hjournal⟩ := h
  unfold Turn.task
  simp only [Levels.top?_renamed]
  cases a.session.levels.top? with
  | none =>
      simp only [Option.map_none, Levels.renamed, List.isEmpty_map]
      split
      · rfl
      · rfl
  | some frame =>
      simp only [Option.map_some]
      split
      · rfl
      · have hsteps : (frame.renamed rename).steps = frame.steps := rfl
        rw [hsteps]
        cases frame.steps with
        | nil => rfl
        | cons step rest => rfl

theorem pop (h : a.Mirrors engine rename b) :
    (a.withLevels a.session.levels.pop.1).Mirrors engine rename
      (b.withLevels b.session.levels.pop.1) := by
  apply h.withLevels fun levels => levels.pop.1
  · intro levels
    simp [Levels.pop, Levels.renamed]
  · intro levels f hf
    refine ⟨f, ?_, rfl⟩
    rcases Levels.mem_frames.1 hf with hcurrent | hsuspended
    · exact Levels.mem_frames.2 (.inl (List.mem_of_mem_tail hcurrent))
    · exact Levels.mem_frames.2 (.inr hsuspended)

theorem drain (h : a.Mirrors engine rename b) :
    (a.withLevels a.session.levels.drain.1).Mirrors engine rename
      (b.withLevels b.session.levels.drain.1) := by
  apply h.withLevels fun levels => levels.drain.1
  · exact fun _ => rfl
  · intro levels f hf
    rcases Levels.mem_frames.1 hf with hnone | hsuspended
    · cases hnone
    · exact ⟨f, Levels.mem_frames.2 (.inr hsuspended), rfl⟩

theorem reset (h : a.Mirrors engine rename b) :
    (a.withLevels a.session.levels.reset.1).Mirrors engine rename
      (b.withLevels b.session.levels.reset.1) :=
  h.withLevels (fun levels => levels.reset.1) (fun _ => rfl) fun _ _ hf =>
    absurd hf List.not_mem_nil

theorem abort (h : a.Mirrors engine rename b) (error : EngineError) :
    (a.abort engine error).Mirrors engine rename (b.abort engine error) :=
  h.drain.tell _

theorem concluded (h : a.Mirrors engine rename b) :
    (a.concluded engine).Mirrors engine rename (b.concluded engine) := by
  have houtbox : b.session.outbox = a.session.outbox := by
    obtain ⟨_, journal, ⟨scopes, lastEntry, history, h⟩, hjournal⟩ := h
    rfl
  unfold Turn.concluded
  rw [houtbox]
  split
  · exact h.tell _
  · exact h

/-! ### Rounds -/

theorem resume (h : a.Mirrors engine rename b) :
    (a.resume engine).1.Mirrors engine rename (b.resume engine).1 ∧
      (b.resume engine).2 = (a.resume engine).2 := by
  have hkept := h
  obtain ⟨_, journal, ⟨scopes, lastEntry, history, h⟩, hjournal⟩ := h
  unfold Turn.resume
  simp only [Levels.leave_renamed]
  cases hleave : a.session.levels.leave with
  | error e => exact ⟨hkept, rfl⟩
  | ok left =>
      obtain ⟨levels, level⟩ := left
      have hleft : (a.withLevels levels).Mirrors engine rename
          { a with
            session :=
              { a.session with
                levels := levels.renamed rename
                scopes := scopes
                lastEntry := lastEntry
                history := history }
            journal := journal } := by
        refine .intro _ journal (.intro scopes lastEntry history (h.of_scopes ?_)) hjournal
        intro f hf
        exact ⟨f, Levels.mem_of_leave hleave hf, rfl⟩
      simp only [Except.map, Levels.top?_renamed]
      cases levels.top? with
      | none => exact ⟨hleft, rfl⟩
      | some frame =>
          have hresumed := hleft.modifyTop (Turn.resumed a.session.userId) (fun _ => rfl)
            fun _ => rfl
          exact ⟨hresumed.tell _, rfl⟩

theorem finishFrame (h : a.Mirrors engine rename b) (frame : Frame) :
    (a.finishFrame frame).1.Mirrors engine rename (b.finishFrame (frame.renamed rename)).1 ∧
      (b.finishFrame (frame.renamed rename)).2 = (a.finishFrame frame).2 := by
  have hpopped := h.pop
  have htransaction : (frame.renamed rename).transaction = frame.transaction := rfl
  unfold Turn.finishFrame
  rw [htransaction]
  cases frame.transaction.ifOpen Transaction.complete with
  | error e => exact ⟨hpopped, rfl⟩
  | ok transaction => exact ⟨hpopped, rfl⟩

/-- What happened in a scene is adopted by both turns, if the frame has stayed in its scope. -/
theorem adopt (h : a.Mirrors engine rename b) {frame : Frame}
    (htop : a.session.levels.top? = some frame) {scene other : Scene}
    (hscene : scene.Mirrors engine rename True other) (hscope : scene.frame.scope = frame.scope) :
    (a.adopt scene).Mirrors engine rename (b.adopt other) := by
  obtain ⟨context, past, hcontext, hpast⟩ := hscene
  obtain rfl := hcontext trivial
  obtain ⟨_, journal, ⟨scopes, lastEntry, history, h⟩, hjournal⟩ := h
  obtain ⟨callers, suspended, hlevels⟩ := Levels.top?_eq_some.1 htop
  have hframe : frame ∈ a.session.levels.frames :=
    Levels.mem_frames.2 (.inl (List.mem_of_head? htop))
  have hput := h.put hframe scene.vars
  rw [← hscope] at hput
  have hchanged : (a.session.levels.renamed rename).modifyTop
      (fun _ => scene.frame.renamed rename) =
        (a.session.levels.modifyTop fun _ => scene.frame).renamed rename := by
    rw [hlevels]
    rfl
  have hscopes : (a.session.levels.modifyTop fun _ => scene.frame).Renaming rename
      (a.session.scopes.put scene.frame.scope scene.vars)
      (scopes.put (rename scene.frame.scope) scene.vars) := by
    apply hput.of_scopes
    intro f hf
    rw [hlevels] at hf ⊢
    rcases List.mem_cons.1 hf with rfl | hother
    · exact ⟨frame, List.mem_cons_self, hscope⟩
    · exact ⟨f, List.mem_cons_of_mem _ hother, rfl⟩
  show (a.adopt scene).Mirrors engine rename
    { a with
      session :=
        { a.session with
          levels := (a.session.levels.renamed rename).modifyTop fun _ =>
            scene.frame.renamed rename
          scopes := scopes.put (rename scene.frame.scope) scene.vars
          outbox := a.session.outbox ++ scene.said
          lastEntry := lastEntry
          history := history }
      input := scene.input
      journal := past }
  rw [hchanged]
  exact .intro _ past (.intro _ lastEntry history hscopes) hpast

/-- A frame may come on top of another one in its scope. -/
theorem push (h : a.Mirrors engine rename b) {top : Frame}
    (htop : a.session.levels.top? = some top) {frame : Frame} (hscope : frame.scope = top.scope) :
    (a.withLevels (a.session.levels.push frame)).Mirrors engine rename
      (b.withLevels (b.session.levels.push (frame.renamed rename))) := by
  obtain ⟨_, journal, ⟨scopes, lastEntry, history, h⟩, hjournal⟩ := h
  refine .intro _ journal (.intro scopes lastEntry history (h.of_scopes ?_)) hjournal
  intro f hf
  rcases List.mem_cons.1 hf with rfl | hother
  · exact ⟨top, Levels.mem_frames.2 (.inl (List.mem_of_head? htop)), hscope⟩
  · exact ⟨f, hother, rfl⟩

theorem settle (h : a.Mirrors engine rename b) {frame : Frame}
    (htop : a.session.levels.top? = some frame) {outcome other : Outcome}
    (houtcome : outcome.Mirrors engine rename True other)
    (hscope : outcome.scene.frame.scope = frame.scope)
    (henter : ∀ entered, outcome.next = .ok (.enter entered) → entered.scope = frame.scope) :
    (a.settle outcome).1.Resembles engine (b.settle other).1 ∧
      (b.settle other).2 = (a.settle outcome).2 := by
  have hadopted := h.adopt htop houtcome.scene hscope
  have hnext := houtcome.next
  obtain ⟨scene, next⟩ := outcome
  obtain ⟨scene', next'⟩ := other
  obtain rfl : next' = next.map (Next.renamed rename) := hnext
  match next with
  | .error e => exact ⟨⟨rename, hadopted⟩, rfl⟩
  | .ok .proceed => exact ⟨⟨rename, hadopted⟩, rfl⟩
  | .ok .await => exact ⟨⟨rename, hadopted⟩, rfl⟩
  | .ok .leave => exact ⟨⟨rename, hadopted.pop⟩, rfl⟩
  | .ok (.enter entered) =>
      obtain ⟨callers, suspended, hlevels⟩ := Levels.top?_eq_some.1 htop
      have htop' : (a.adopt scene).session.levels.top? = some scene.frame := by
        rw [levels_adopt hlevels]
        rfl
      have hsame : entered.scope = scene.frame.scope := (henter entered rfl).trans hscope.symm
      exact ⟨⟨rename, hadopted.push htop' hsame⟩, rfl⟩
  | .ok (.restart none) => exact ⟨⟨rename, hadopted.reset⟩, rfl⟩
  | .ok (.restart (some flow)) => exact ⟨hadopted.reset.activate flow "reboot", rfl⟩

/-- A step of the frame that runs does the same in both turns. -/
theorem runStep (h : a.Mirrors engine rename b) (horder : a.session.InOrder) {frame : Frame}
    (htop : a.session.levels.top? = some frame) (step : Step) :
    (Turn.runStep engine a frame step).1.Resembles engine
        (Turn.runStep engine b (frame.renamed rename) step).1 ∧
      (Turn.runStep engine b (frame.renamed rename) step).2 =
        (Turn.runStep engine a frame step).2 := by
  have hframe : frame ∈ a.session.levels.frames :=
    Levels.mem_frames.2 (.inl (List.mem_of_head? htop))
  obtain ⟨vars, hvars⟩ := Scopes.has_iff.1 (horder.wellScoped.present frame hframe)
  have hactive : frame.transaction.state = .active :=
    horder.wellAccounted.running frame (List.mem_of_head? htop)
  have hvars' : b.session.scopes.get? (frame.renamed rename).scope = some vars := by
    obtain ⟨_, journal, ⟨scopes, lastEntry, history, h⟩, hjournal⟩ := h
    exact (h.same frame hframe).trans hvars
  have hstage : b.stage engine = a.stage engine := by
    obtain ⟨_, journal, ⟨scopes, lastEntry, history, h⟩, hjournal⟩ := h
    simp [stage, Levels.renamed, Levels.depth]
  have hscene : (a.scene frame vars).Mirrors engine rename True
      (b.scene (frame.renamed rename) vars) := by
    obtain ⟨_, journal, ⟨scopes, lastEntry, history, h⟩, hjournal⟩ := h
    exact .intro frame.context journal (fun _ => rfl) hjournal
  have heffect : Effect (a.stage engine) step (a.scene frame vars)
      (perform (a.stage engine) step (a.scene frame vars)) := perform_effect step hactive
  have hperformed : (perform (a.stage engine) step (a.scene frame vars)).Mirrors engine rename True
      (perform (a.stage engine) step (b.scene (frame.renamed rename) vars)) :=
    @perform_mirrors (a.stage engine) rename True _ _ hscene step (.inl trivial)
  unfold Turn.runStep
  simp only [hvars, hvars', hstage]
  apply h.settle htop hperformed heffect.scope
  intro entered hnext
  obtain ⟨flow, transaction, rfl, -⟩ := heffect.enter hnext
  rfl

/-- A step leaves turns that resemble each other. -/
theorem step (engine : Engine) (h : a.Mirrors engine rename b) (horder : a.session.InOrder) :
    (a.step engine).1.Resembles engine (b.step engine).1 ∧
      (b.step engine).2 = (a.step engine).2 := by
  rw [step_eq_carried engine a, step_eq_carried engine b, h.task]
  cases htask : a.task engine with
  | rest => exact ⟨⟨rename, h⟩, rfl⟩
  | resume => exact ⟨⟨rename, h.resume.1⟩, h.resume.2⟩
  | stop => exact ⟨⟨rename, h.charged⟩, rfl⟩
  | complete frame =>
      obtain ⟨hturns, hsame⟩ := h.charged.finishFrame frame
      exact ⟨⟨rename, hturns⟩, hsame⟩
  | dispatch frame step =>
      obtain ⟨htop, -, -⟩ := task_eq_dispatch.1 htask
      have hcharged : a.charged.session.InOrder := horder
      exact h.charged.runStep hcharged htop step

end Turn.Mirrors

namespace Turn.Resembles

variable {engine : Engine} {a b : Turn}

theorem round (h : a.Resembles engine b) (horder : a.session.InOrder) :
    (a.round engine).Resembles engine (b.round engine) := by
  obtain ⟨rename, h⟩ := h
  obtain ⟨hturns, hsame⟩ := h.step engine horder
  unfold Turn.round
  generalize a.step engine = left at hturns hsame ⊢
  generalize b.step engine = right at hturns hsame ⊢
  obtain ⟨after, progress⟩ := left
  obtain ⟨other, progress'⟩ := right
  obtain rfl : progress' = progress := hsame
  obtain ⟨rename', hturns⟩ := hturns
  match progress' with
  | .ok .running => exact .onward ⟨rename', hturns⟩
  | .ok .blocked => exact .ended ⟨rename', hturns⟩
  | .ok .done => exact .ended ⟨rename', hturns.concluded⟩
  | .error e =>
      simp only
      split
      · exact .ended ⟨rename', hturns.abort e⟩
      · exact .onward ⟨rename', hturns.abort e⟩

end Turn.Resembles

end Parley
