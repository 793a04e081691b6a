import Parley.Proofs.Conversations

/-!
# The levels with which a turn begins

An entry that makes a turn run leaves the levels in one of four ways.  A flow that
it starts is one of the library: the model names flows, and what it names is looked
up before anything else is done.
-/

set_option autoImplicit false

namespace Parley

/-! ## Flows that an input asks for -/

theorem Intent.flow_of_reply {library : Library} {reply : String} {intent : Intent}
    (h : ofReply? library reply = some intent) : ∃ key, library.get? key = some intent.flow := by
  unfold ofReply? at h
  split at h
  · rename_i key strength hdecoded
    obtain ⟨flow, hflow, rfl⟩ := Option.map_eq_some_iff.1 h
    exact ⟨key, hflow⟩
  · cases h

theorem Intent.flow_of_classify {engine : Engine} {journal : Journal} {input : String}
    {current : Option String} {intent : Intent}
    (h : (classify engine journal input current).2 = some intent) :
    ∃ key, engine.library.get? key = some intent.flow := by
  unfold classify at h
  split at h
  · exact flow_of_reply h
  · cases h

namespace Turn

variable {engine : Engine} {turn : Turn} {flow : Definition}

theorem flow_of_reactionTo {current : String} {intent : Option Intent}
    (h : reactionTo engine current intent = .interrupt flow) :
    ∃ strength, intent = some ⟨flow, strength⟩ := by
  unfold reactionTo at h
  split at h
  · split at h
    · cases h
    · split at h
      · cases h
      · cases h
        exact ⟨.strong, rfl⟩
  · cases h

theorem flow_of_consider {input current : String}
    (h : (turn.consider engine input current).2 = .interrupt flow) :
    ∃ key, engine.library.get? key = some flow := by
  obtain ⟨strength, hintent⟩ := flow_of_reactionTo h
  exact Intent.flow_of_classify hintent

/-- A flow that interrupts another one is one of the library. -/
theorem flow_of_react {frame : Frame} {input : String}
    (h : (turn.react engine frame input).2 = .interrupt flow) :
    ∃ key, engine.library.get? key = some flow := by
  unfold react at h
  split at h
  · cases h
  · cases h
  · cases h
  · rename_i target hcommand hpending
    cases hfound : engine.library.get? target with
    | none =>
        rw [hfound] at h
        exact flow_of_consider h
    | some found =>
        rw [hfound] at h
        cases h
        exact ⟨target, hfound⟩
  · cases h
  · exact flow_of_consider h
  · exact flow_of_consider h

end Turn

/-! ## The first levels of a turn -/

/-- The levels with which a turn begins, told by those of the session before. -/
inductive Begun (library : Library) (before : Levels) : Levels → Prop where
  /-- The flow in progress goes on. -/
  | kept (frame frame' : Frame) (callers : Level) (suspended : List Level)
      (hbefore : before = ⟨frame :: callers, suspended⟩) (halike : frame.Alike frame') :
      Begun library before ⟨frame' :: callers, suspended⟩
  /-- The flows of the innermost level are given up. -/
  | cancelled (frame : Frame) (callers : Level) (suspended : List Level)
      (hbefore : before = ⟨frame :: callers, suspended⟩) : Begun library before ⟨[], suspended⟩
  /-- Another flow interrupts the one in progress. -/
  | interrupted (frame frame' : Frame) (callers : Level) (suspended : List Level) (key : String)
      (flow : Definition) (scope : Nat) (transaction : Transaction)
      (hbefore : before = ⟨frame :: callers, suspended⟩) (halike : frame.Alike frame')
      (hflow : library.get? key = some flow) :
      Begun library before
        ⟨[.start flow scope transaction], (Turn.paused frame' :: callers) :: suspended⟩
  /-- A flow starts while none is in progress. -/
  | welcomed (suspended : List Level) (key : String) (flow : Definition) (scope : Nat)
      (transaction : Transaction) (hbefore : before = ⟨[], suspended⟩)
      (hflow : library.get? key = some flow) :
      Begun library before ⟨[.start flow scope transaction], suspended⟩

/-- The levels below stay where they are, and an interruption adds one to them. -/
theorem Begun.suspended {library : Library} {before after : Levels}
    (h : Begun library before after) : before.suspended <:+ after.suspended := by
  cases h with
  | kept frame frame' callers suspended hbefore halike =>
      subst hbefore
      exact List.suffix_refl suspended
  | cancelled frame callers suspended hbefore =>
      subst hbefore
      exact List.suffix_refl suspended
  | interrupted frame frame' callers suspended key flow scope transaction hbefore halike hflow =>
      subst hbefore
      exact List.suffix_cons _ suspended
  | welcomed suspended key flow scope transaction hbefore hflow =>
      subst hbefore
      exact List.suffix_refl suspended

namespace Turn

variable {engine : Engine} {turn after : Turn}

theorem welcome_begun {suspended : List Level} {input : String}
    (hlevels : turn.session.levels = ⟨[], suspended⟩)
    (h : turn.welcome engine input = .running after) :
    Begun engine.library ⟨[], suspended⟩ after.session.levels := by
  unfold welcome at h
  simp only at h
  split at h
  · cases h
  · cases h
  · rename_i intent flow strength hother hintent
    obtain ⟨key, hflow⟩ := Intent.flow_of_classify hintent
    cases h
    have hstarted : (turn.activate flow "user").session.levels =
        ⟨[.start flow turn.session.scopes.nextId (.start flow.name "user" turn.session.userId)],
          suspended⟩ := by
      simp [activate, withSession, hlevels, Levels.push, Scopes.allocate]
    show Begun engine.library ⟨[], suspended⟩ (turn.activate flow "user").session.levels
    rw [hstarted]
    exact .welcomed suspended key flow _ _ rfl hflow

theorem carryOut_begun {frame frame' named : Frame} {callers : Level} {suspended : List Level}
    {reaction : Reaction} (halike : frame.Alike frame')
    (hlevels : turn.session.levels = ⟨frame' :: callers, suspended⟩)
    (hflow : ∀ flow, reaction = .interrupt flow → ∃ key, engine.library.get? key = some flow)
    (h : turn.carryOut engine named reaction = .running after) :
    Begun engine.library ⟨frame :: callers, suspended⟩ after.session.levels := by
  cases reaction with
  | cancel =>
      obtain ⟨drained, hcancel, hdrained, -⟩ := cancel_running hlevels engine
      simp only [carryOut, hcancel, Opening.running.injEq] at h
      subst h
      rw [hdrained]
      exact .cancelled frame callers suspended rfl
  | help | status | confirm flow => cases h
  | stay | goOn =>
      cases h
      show Begun engine.library ⟨frame :: callers, suspended⟩ turn.session.levels
      rw [hlevels]
      exact .kept frame frame' callers suspended rfl halike
  | interrupt flow =>
      obtain ⟨key, hfound⟩ := hflow flow rfl
      cases h
      rw [levels_switchTo hlevels]
      exact .interrupted frame frame' callers suspended key flow _ _ rfl halike hfound

end Turn

namespace Engine

variable {engine : Engine} {session : Session} {exchange : Exchange}

theorem flow_of_reaction? {flow : Definition}
    (h : engine.reaction? session exchange = some (.interrupt flow)) :
    ∃ key, engine.library.get? key = some flow := by
  unfold reaction? at h
  split at h
  · obtain ⟨frame, -, hreaction⟩ := Option.map_eq_some_iff.1 h
    exact Turn.flow_of_react hreaction
  · cases h

/-- A turn that an entry makes run begins with levels of one of these kinds. -/
theorem opening_begun {turn : Turn} (hrole : exchange.entry.role = .user)
    (h : engine.opening exchange.journal session exchange.entry = .running turn) :
    Begun engine.library session.levels turn.session.levels := by
  rcases hlevels : session.levels with ⟨current, suspended⟩
  cases current with
  | nil =>
      obtain ⟨hopening, hheard⟩ := opening_of_nil engine exchange hlevels
      exact Turn.welcome_begun hheard (hopening.symm.trans h)
  | cons frame callers =>
      obtain ⟨opened, named, reaction, hreaction, hopening, htouched, -⟩ :=
        opening_of_frame engine hrole hlevels
      obtain ⟨frame', halike, hopened⟩ := htouched.levels_eq hlevels
      have hflow : ∀ flow, reaction = .interrupt flow →
          ∃ key, engine.library.get? key = some flow := by
        rintro flow rfl
        exact flow_of_reaction? hreaction
      exact Turn.carryOut_begun halike hopened hflow (hopening.symm.trans h)

end Engine

end Parley
