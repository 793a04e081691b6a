import Parley.Proofs.Conversations

/-!
# Scopes between turns

Between two exchanges a session holds exactly the scopes that its frames refer to.
None is missing, because the session is in order; none is left over, because a
turn that runs drops what is not needed at its end, and an entry that is noted or
answered at once changes neither the scopes nor what the frames refer to.
-/

set_option autoImplicit false

namespace Parley

namespace Session

/-- Every scope of the session is the scope of a frame. -/
def Collected (session : Session) : Prop :=
  ∀ id, session.scopes.has id = true → id ∈ session.levels.frames.map Frame.scope

theorem Touched.collected {before after : Session} (h : before.Touched after)
    (hcollected : before.Collected) : after.Collected := by
  intro id hid
  rw [h.scopes_frames]
  exact hcollected id (h.scopes ▸ hid)

/-- The scopes of a session are those of its frames and no others, their numbers are below the next
one, and two frames share a scope exactly if they stand on the same level. -/
structure ScopedExactly (session : Session) : Prop where
  exact : ∀ id, id ∈ Table.keys session.scopes.entries ↔
    ∃ frame ∈ session.levels.frames, frame.scope = id
  below : ∀ id ∈ Table.keys session.scopes.entries, id < session.scopes.nextId
  shared : ∀ level ∈ session.levels.toList, ∀ f ∈ level, ∀ g ∈ level, f.scope = g.scope
  apart : session.levels.toList.Pairwise fun a b => ∀ f ∈ a, ∀ g ∈ b, f.scope ≠ g.scope

theorem InOrder.scopedExactly {session : Session} (horder : session.InOrder)
    (hcollected : session.Collected) : session.ScopedExactly := by
  have hscopes := horder.wellScoped
  refine ⟨?_, ?_, ?_, ?_⟩
  · intro id
    rw [Table.mem_keys]
    constructor
    · intro hid
      exact List.mem_map.1 (hcollected id hid)
    · rintro ⟨frame, hframe, rfl⟩
      exact hscopes.present frame hframe
  · intro id hid
    exact hscopes.fresh id (Table.mem_keys.1 hid)
  · intro level hlevel
    exact hscopes.shared level (List.mem_reverse.1 hlevel)
  · refine List.pairwise_reverse.2 (hscopes.apart.imp ?_)
    intro a b hab f hf g hg heq
    exact hab g hg f hf heq.symm

end Session

namespace Turn

/-- At its end a turn keeps no scope that no frame refers to. -/
theorem run_collected (engine : Engine) (turn : Turn) :
    (turn.run engine).1.session.Collected := by
  obtain ⟨hlevels, hscopes⟩ := session_run engine turn
  intro id hid
  rw [hscopes] at hid
  rw [hlevels]
  exact (Scopes.has_retain.1 hid).1

end Turn

namespace Engine

variable {engine : Engine} {session : Session}

theorem next_collected (hcollected : session.Collected) (exchange : Exchange) :
    (engine.next session exchange).Collected := by
  rcases next_cases engine session exchange with htouched | ⟨turn, -, -, hnext, -⟩
  · exact htouched.collected hcollected
  · rw [hnext]
    exact Turn.run_collected engine turn

theorem Reachable.collected (h : engine.Reachable session) : session.Collected := by
  induction h with
  | start userId id =>
      intro id hid
      simp [Scopes.has, Table.has, Table.get?, startSession, Session.start, Scopes.empty] at hid
  | next hsession exchange ih => exact next_collected ih exchange

/-- In every session that an engine leads, the scopes are exactly those of the frames, one for each
level, and no frame refers to a scope that does not exist. -/
theorem reachable_scopes (h : engine.Reachable session) :
    session.ScopedExactly ∧ session.danglingFrame? = none :=
  ⟨h.inOrder.scopedExactly h.collected, h.inOrder.danglingFrame?⟩

end Engine

namespace Kiosk

/-- While the second flow interrupts the first one, there are two levels with a scope each. -/
theorem scopes_interrupted :
    Table.keys (sessionAfter ["Order", "Weather"]).scopes.entries = [0, 1] ∧
      (sessionAfter ["Order", "Weather"]).ScopedExactly ∧
      (sessionAfter ["Order", "Weather"]).danglingFrame? = none :=
  ⟨by decide +kernel, Engine.reachable_scopes (reachable_sessionAfter ["Order", "Weather"])⟩

end Kiosk

end Parley
