import Parley.Proofs.Lineages

/-!
# When a flow is started in a scope of its own

A session comes from outside, and is refused if a frame refers to a scope that does
not exist.  Nothing else is asked of its scopes, in particular not that the next
number is free.  So nothing here rests on the invariants of sessions that an engine
has led itself.  A flow gets a scope of its own exactly if no frame uses the next
number; otherwise it takes over the scope of the frames that do, and their variables
are lost.  If the next number is above those of all frames, it stays so for ever.
-/

set_option autoImplicit false

namespace Parley

/-! ## Spare numbers -/

/-- A change of the frame that runs that leaves it in its scope leaves all scopes in place. -/
theorem Levels.scopes_modifyTop (levels : Levels) {change : Frame → Frame}
    (hscope : ∀ frame, (change frame).scope = frame.scope) :
    (levels.modifyTop change).frames.map Frame.scope = levels.frames.map Frame.scope := by
  obtain ⟨current, suspended⟩ := levels
  cases current with
  | nil => rfl
  | cons frame callers => simp [Levels.modifyTop, Levels.frames, Levels.inward, hscope]

/-- The next number is above the scopes of all frames. -/
def Session.Spare (session : Session) : Prop :=
  ∀ frame ∈ session.levels.frames, frame.scope < session.scopes.nextId

/-- A next number that is above the scopes of all frames stays above them. -/
theorem Session.LeadsTo.spare {before after : Session} (h : before.LeadsTo after)
    (hspare : before.Spare) : after.Spare := by
  intro frame hframe
  obtain ⟨origin, hbecomes, horigin⟩ := h.frames frame hframe
  rw [hbecomes.scope]
  rcases horigin with hthere | ⟨-, ⟨older, holder, hshared⟩ | ⟨-, hgiven⟩⟩
  · exact Nat.lt_of_lt_of_le (hspare origin hthere) h.next
  · rw [← hshared]
    exact Nat.lt_of_lt_of_le (hspare older holder) h.next
  · exact hgiven

/-- In a session in order the next number is spare. -/
theorem Session.InOrder.spare {session : Session} (h : session.InOrder) : session.Spare :=
  fun frame hframe => h.wellScoped.fresh _ (h.wellScoped.present frame hframe)

/-! ## Flows that an exchange starts -/

namespace Engine

variable {engine : Engine} {session : Session}

/-- The turn that an exchange makes run, if it begins with a further frame: the exchange starts a
flow or switches to one. -/
def started? (engine : Engine) (session : Session) (exchange : Exchange) : Option Turn :=
  match engine.opening? session exchange with
  | some (.running turn) =>
    if session.levels.frames.length < turn.session.levels.frames.length then some turn else none
  | _ => none

theorem started?_eq_some {exchange : Exchange} {turn : Turn} :
    engine.started? session exchange = some turn ↔
      exchange.entry.role = .user ∧ session.danglingFrame? = none ∧
        engine.opening exchange.journal session exchange.entry = .running turn ∧
        session.levels.frames.length < turn.session.levels.frames.length := by
  unfold started? opening?
  by_cases hcalled : exchange.entry.role = .user ∧ session.danglingFrame? = none
  · rw [if_pos hcalled]
    cases engine.opening exchange.journal session exchange.entry with
    | answered other response => simp
    | running other =>
        simp only [Option.ite_none_right_eq_some, Option.some.injEq, hcalled, true_and,
          Opening.running.injEq]
        constructor
        · rintro ⟨hmore, rfl⟩
          exact ⟨rfl, hmore⟩
        · rintro ⟨rfl, hmore⟩
          exact ⟨hmore, rfl⟩
  · rw [if_neg hcalled]
    simp only [reduceCtorEq, false_iff]
    rintro ⟨hrole, hvalid, -⟩
    exact hcalled ⟨hrole, hvalid⟩

end Engine

/-- A frame has come on top of those of a session, with the next number as its scope, and the scope
has been given its first variables. -/
structure Session.Grown (before after : Session) (frame : Frame) : Prop where
  frames : ∃ others, after.levels.frames = frame :: others ∧
    others.map Frame.scope = before.levels.frames.map Frame.scope
  scope : frame.scope = before.scopes.nextId
  scopes : ∃ vars, after.scopes = (before.scopes.allocate vars).1

/-- No frame of the session uses the scope of the new one, and each has its variables. -/
structure Session.GrownSafely (before after : Session) (frame : Frame) : Prop where
  apart : ∀ other ∈ before.levels.frames, other.scope ≠ frame.scope
  kept : ∀ other ∈ before.levels.frames,
    after.scopes.get? other.scope = before.scopes.get? other.scope

namespace Session

variable {before middle after : Session} {frame : Frame}

theorem Touched.grown (h : before.Touched middle) (hgrown : middle.Grown after frame) :
    before.Grown after frame := by
  obtain ⟨⟨others, hframes, hscopes⟩, hscope, hallocated⟩ := hgrown
  rw [h.scopes] at hscope hallocated
  exact ⟨⟨others, hframes, hscopes.trans h.scopes_frames⟩, hscope, hallocated⟩

namespace Grown

/-- Frames in other scopes than the new one keep their variables. -/
theorem kept (h : before.Grown after frame) {other : Frame}
    (hother : other.scope ≠ before.scopes.nextId) :
    after.scopes.get? other.scope = before.scopes.get? other.scope := by
  obtain ⟨vars, hscopes⟩ := h.scopes
  rw [hscopes]
  exact Scopes.get?_put_of_ne vars hother

theorem safely_iff (h : before.Grown after frame) :
    before.GrownSafely after frame ↔
      ∀ other ∈ before.levels.frames, other.scope ≠ before.scopes.nextId := by
  constructor
  · intro hsafe other hother
    rw [← h.scope]
    exact hsafe.apart other hother
  · intro hfree
    refine ⟨fun other hother => ?_, fun other hother => h.kept (hfree other hother)⟩
    rw [h.scope]
    exact hfree other hother

end Grown

end Session

namespace Turn

variable {turn : Turn}

theorem activate_grown (turn : Turn) (flow : Definition) (initiator : String) :
    ∃ frame, turn.session.Grown (turn.activate flow initiator).session frame :=
  ⟨_, ⟨_, rfl, rfl⟩, rfl, _, rfl⟩

theorem switchTo_grown (turn : Turn) (flow : Definition) :
    ∃ frame, turn.session.Grown (turn.switchTo flow).session frame :=
  ⟨_, ⟨_, rfl, turn.session.levels.scopes_modifyTop fun _ => rfl⟩, rfl, _, rfl⟩

end Turn

namespace Engine

variable {engine : Engine} {session : Session}

theorem grown_of_started? {exchange : Exchange} {turn : Turn}
    (h : engine.started? session exchange = some turn) :
    ∃ frame, session.Grown turn.session frame := by
  obtain ⟨hrole, -, hopening, hmore⟩ := started?_eq_some.1 h
  rcases hlevels : session.levels with ⟨current, suspended⟩
  cases current with
  | nil =>
      obtain ⟨hwelcome, -⟩ := opening_of_nil engine exchange hlevels
      have hheard := Session.touched_hear session exchange.entry
      rw [hwelcome] at hopening
      unfold Turn.welcome at hopening
      simp only at hopening
      split at hopening
      · cases hopening
      · cases hopening
      · cases hopening
        obtain ⟨frame, hgrown⟩ := Turn.activate_grown (heard session exchange) _ "user"
        exact ⟨frame, hheard.grown hgrown⟩
  | cons top callers =>
      obtain ⟨opened, named, reaction, -, hcarried, htouched, -⟩ :=
        opening_of_frame engine hrole hlevels
      have hsame : opened.session.levels.frames.length = session.levels.frames.length := by
        simpa using congrArg List.length htouched.scopes_frames
      obtain ⟨top', -, hopened⟩ := htouched.levels_eq hlevels
      rw [hcarried] at hopening
      cases reaction with
      | cancel =>
          obtain ⟨cancelled, hcancelled, hdrained, -⟩ := Turn.cancel_running hopened engine
          cases hcancelled.symm.trans hopening
          simp only [hdrained, hlevels, Levels.frames, Levels.inward, List.flatten_cons,
            List.length_append, List.length_nil] at hmore
          omega
      | help | status | confirm flow => cases hopening
      | stay | goOn =>
          cases hopening
          exact absurd hsame.symm (Nat.ne_of_lt hmore)
      | interrupt flow =>
          cases hopening
          obtain ⟨frame, hgrown⟩ := opened.switchTo_grown flow
          exact ⟨frame, htouched.grown hgrown⟩

end Engine

namespace Kiosk

/-- The session of a guest who has been asked for the size of an order, with the number of its scope
as the next one: it has not been led there by the engine. -/
def forged : Session :=
  { sessionAfter ["Order"] with scopes := { (sessionAfter ["Order"]).scopes with nextId := 0 } }

/-- The wish for the weather starts a flow there. -/
theorem weather_started :
    (engine.started? forged (guest "Weather")).isSome = true ∧
      (engine.started? (sessionAfter ["Order"]) (guest "Weather")).isSome = true := by
  decide +kernel

end Kiosk

end Parley
