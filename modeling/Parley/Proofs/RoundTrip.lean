import Parley.Proofs.Interruptions
import Parley.Proofs.Questions

/-!
# The way back from an interruption

Whatever is said while a flow is interrupted, the flow stays parked until an
exchange closes the last level above it.  The turn of that exchange ends with the
question at which the flow was interrupted.
-/

set_option autoImplicit false

namespace Parley

/-- The reaction lets another flow interrupt the one in progress. -/
def Reaction.interrupts : Reaction → Bool
  | interrupt _ => true
  | _ => false

namespace Session

variable {base : Levels} {scopes : Scopes} {before after : Session}

/-- What is parked outlasts that scopes are dropped to which no frame refers. -/
theorem Parked.collect (h : before.Parked base scopes) (hlevels : after.levels = before.levels)
    (hscopes : after.scopes = before.scopes.retain (before.levels.frames.map Frame.scope)) :
    after.Parked base scopes := by
  apply h.withCurrent before.levels.current hlevels
  intro frame hframe
  have hlive := List.mem_map_of_mem (f := Frame.scope) (h.mem_frames hframe)
  rw [hscopes, Scopes.get?_retain]
  simp [hlive]

end Session

namespace Turn

variable {base : Levels} {scopes : Scopes} {engine : Engine} {turn : Turn}

/-! ## Entries that come while a flow is parked -/

theorem switchTo_parked (horder : turn.session.InOrder)
    (hparked : turn.session.Parked base scopes) {frame : Frame} {callers : Level}
    {suspended : List Level} (hlevels : turn.session.levels = ⟨frame :: callers, suspended⟩)
    (flow : Definition) : (turn.switchTo flow).session.Parked base scopes := by
  have hswitched := levels_switchTo hlevels flow
  obtain ⟨current, above, hbefore⟩ := hparked.levels
  constructor
  · rw [hlevels] at hbefore
    cases hbefore
    exact ⟨_, (paused frame :: callers) :: above, hswitched⟩
  · intro f hf
    rw [scopes_switchTo, Scopes.get?_allocate_of_lt _ (hparked.scope_lt horder hf)]
    exact hparked.scopes f hf

/-- An interruption parks the level of the frame that ran. -/
theorem parked_switchTo (horder : turn.session.InOrder) {frame : Frame} {callers : Level}
    {suspended : List Level} (hlevels : turn.session.levels = ⟨frame :: callers, suspended⟩)
    (flow : Definition) :
    (turn.switchTo flow).session.Parked ⟨paused frame :: callers, suspended⟩
      turn.session.scopes := by
  refine ⟨⟨_, [], levels_switchTo hlevels flow⟩, ?_⟩
  have hscopes := horder.wellScoped
  rw [hlevels] at hscopes
  intro f hf
  have hbelow : f.scope < turn.session.scopes.nextId := by
    have hpaused : (Levels.mk (paused frame :: callers) suspended).WellScoped turn.session.scopes :=
      hscopes.modifyTop fun f => show (paused f).scope = f.scope from rfl
    exact hpaused.fresh _ (hpaused.present f hf)
  rw [scopes_switchTo, Scopes.get?_allocate_of_lt _ hbelow]

theorem carryOut_parked (horder : turn.session.InOrder)
    (hparked : turn.session.Parked base scopes) {frame : Frame} {callers : Level}
    {suspended : List Level} (hlevels : turn.session.levels = ⟨frame :: callers, suspended⟩)
    (engine : Engine) (named : Frame) (reaction : Reaction) :
    (turn.carryOut engine named reaction).turn.session.Parked base scopes := by
  cases reaction with
  | cancel =>
      obtain ⟨after, hafter, hdrained, hscopes, -⟩ := cancel_running hlevels engine
      simp only [carryOut, hafter, Opening.turn]
      apply hparked.withCurrent [] (by rw [hdrained, hlevels])
      intro f hf
      rw [hscopes]
  | help => exact hparked
  | status => exact hparked
  | stay => exact ⟨hparked.levels, hparked.scopes⟩
  | confirm flow => exact hparked.touched (touched_requestConfirmation turn flow)
  | interrupt flow => exact switchTo_parked horder hparked hlevels flow
  | goOn => exact hparked

theorem welcome_parked (horder : turn.session.InOrder)
    (hparked : turn.session.Parked base scopes) (engine : Engine) (input : String) :
    (turn.welcome engine input).turn.session.Parked base scopes := by
  unfold welcome
  simp only
  split
  · exact hparked
  · exact hparked
  · refine hparked.withCurrent _ rfl ?_
    intro f hf
    exact Scopes.get?_allocate_of_lt _ (hparked.scope_lt horder hf)

end Turn

namespace Engine

variable {base : Levels} {scopes : Scopes} {engine : Engine} {session : Session}
  {exchange : Exchange}

theorem opening_parked (engine : Engine) (horder : session.InOrder)
    (hparked : session.Parked base scopes) (hrole : exchange.entry.role = .user) :
    (engine.opening exchange.journal session exchange.entry).turn.session.Parked base scopes := by
  rcases hlevels : session.levels with ⟨current, suspended⟩
  cases current with
  | nil =>
      obtain ⟨hopening, -⟩ := opening_of_nil engine exchange hlevels
      have htouched := Session.touched_hear session exchange.entry
      rw [hopening]
      exact Turn.welcome_parked (htouched.inOrder horder) (hparked.touched htouched) engine _
  | cons frame callers =>
      obtain ⟨turn, named, reaction, -, hopening, htouched, -⟩ :=
        opening_of_frame engine hrole hlevels
      obtain ⟨frame', -, hturn⟩ := htouched.levels_eq hlevels
      rw [hopening]
      exact Turn.carryOut_parked (htouched.inOrder horder) (hparked.touched htouched) hturn engine
        named reaction

/-! ## The exchange that brings the flow back -/

/-- The turns in which the rounds of some exchanges begin. -/
def trails (engine : Engine) : Session → List Exchange → List Turn
  | _, [] => []
  | session, exchange :: later =>
    engine.trail session exchange ++ trails engine (engine.next session exchange) later

/-- An exchange brings back a flow that was interrupted at a question: the last round of its turn
shows the question, the response ends with it, and the session waits for the answer.  The steps and
the scope of the frame, all frames below it, and the variables of them all are as they were. -/
structure BringsBack (engine : Engine) (session : Session) (exchange : Exchange) (frame : Frame)
    (callers : Level) (suspended : List Level) (message : Wording) (target : String)
    (scopes : Scopes) : Prop where
  waits : ∃ asking text,
    (engine.next session exchange).levels = ⟨asking :: callers, suspended⟩ ∧
    asking.steps = frame.steps ∧ asking.scope = frame.scope ∧
    asking.pendingVariable = some target ∧ asking.lastMessage = some text ∧
    (∃ earlier, engine.response? session exchange =
      some (Session.joinMessages (earlier ++ [text]))) ∧
    ∃ turn vars, (engine.trail session exchange).getLast? = some turn ∧
      (turn.step engine).2 = .ok .blocked ∧ scopes.get? frame.scope = some vars ∧
      text = (turn.stage engine).wordingIn (turn.scene frame vars) message
  kept : ∀ f ∈ (Levels.mk (frame :: callers) suspended).frames,
    (engine.next session exchange).scopes.get? f.scope = scopes.get? f.scope

section Trip

variable {top : Frame} {callers : Level} {suspended : List Level} {scopes : Scopes}
  {id target : String} {message : Wording} {rest : List Step}

/-- The level that was interrupted is the innermost one again. -/
theorem BringsBack.count
    (h : engine.BringsBack session exchange top callers suspended message target scopes) :
    (engine.next session exchange).levels.count = suspended.length + 1 := by
  obtain ⟨asking, text, hlevels, -⟩ := h.waits
  rw [hlevels]
  rfl

/-- What a calm turn makes of a level that is parked when the turn begins. -/
theorem next_of_parked {turn : Turn} (horder : turn.session.InOrder)
    (hparked : turn.session.Parked ⟨top :: callers, suspended⟩ scopes)
    (hsteps : top.steps = .ask id message (some target) :: rest)
    (hpending : top.pendingVariable = none)
    (hnext : engine.next session exchange = (turn.run engine).1.session)
    (hresponse : engine.response? session exchange = (turn.run engine).2)
    (htrail : engine.trail session exchange = turn.trail engine)
    (hcalm : ∀ round ∈ engine.trail session exchange, round.isCalm engine = true) :
    (engine.next session exchange).Parked ⟨top :: callers, suspended⟩ scopes ∨
      engine.BringsBack session exchange top callers suspended message target scopes := by
  obtain ⟨hlevels, hscopes⟩ := Turn.session_run engine turn
  rw [← hnext] at hlevels hscopes
  rw [htrail] at hcalm
  rcases (Turn.runs_drive engine turn).parked hsteps hpending horder hparked hcalm with
    hfinal | ⟨last, asking, text, hlast, hwoken, hreasks, hfinal⟩
  · exact .inl (hfinal.collect hlevels hscopes)
  · obtain ⟨vars, hvars, htext⟩ := hreasks.wording
    rw [hfinal, hreasks.levels] at hlevels hscopes
    have htop : top ∈ (Levels.mk (top :: callers) suspended).frames :=
      Levels.mem_frames.2 (.inl List.mem_cons_self)
    have hlive : (Levels.mk (asking :: callers) suspended).frames.map Frame.scope =
        (Levels.mk (top :: callers) suspended).frames.map Frame.scope := by
      simp [Levels.frames, Levels.inward, hreasks.scope]
    refine .inr ⟨⟨asking, text, hlevels, hreasks.steps, hreasks.scope, hreasks.pending,
      hreasks.shown, ⟨last.session.outbox, ?_⟩, last, vars, ?_, hreasks.blocked, ?_, htext⟩, ?_⟩
    · rw [hresponse]
      apply Turn.response_run
      rw [hfinal]
      exact hreasks.said
    · rw [htrail]
      exact hlast
    · rw [← hwoken.scopes top htop]
      exact hvars
    · intro f hf
      have hkept : ((Levels.mk (asking :: callers) suspended).frames.map Frame.scope).contains
          f.scope = true := by
        rw [hlive]
        exact List.contains_iff_mem.2 (List.mem_map_of_mem hf)
      rw [hscopes, Scopes.get?_retain, if_pos hkept, hreasks.kept]
      exact hwoken.scopes f hf

/-- An exchange with a session in which a level is parked leaves it parked, or brings it back. -/
theorem next_parked (exchange : Exchange) (horder : session.InOrder)
    (hparked : session.Parked ⟨top :: callers, suspended⟩ scopes)
    (hsteps : top.steps = .ask id message (some target) :: rest)
    (hpending : top.pendingVariable = none)
    (hcalm : ∀ turn ∈ engine.trail session exchange, turn.isCalm engine = true) :
    (engine.next session exchange).Parked ⟨top :: callers, suspended⟩ scopes ∨
      engine.BringsBack session exchange top callers suspended message target scopes := by
  rcases next_cases engine session exchange with
    htouched | ⟨turn, hrole, hopening, hnext, hresponse, htrail⟩
  · exact .inl (hparked.touched htouched)
  · have hordered := opening_inOrder engine horder hrole
    have hopened := opening_parked engine horder hparked hrole
    rw [hopening] at hordered hopened
    exact next_of_parked hordered hopened hsteps hpending hnext hresponse htrail hcalm

/-- The exchange that interrupts a flow leaves it parked, or brings it back at once. -/
theorem next_interrupted (horder : session.InOrder) {frame : Frame}
    (hlevels : session.levels = ⟨frame :: callers, suspended⟩)
    (hsteps : frame.steps = .ask id message (some target) :: rest)
    (hswitch : (engine.reaction? session exchange).any Reaction.interrupts = true)
    (hcalm : ∀ turn ∈ engine.trail session exchange, turn.isCalm engine = true) :
    ∃ waiting, frame.Alike waiting ∧
      ((engine.next session exchange).Parked ⟨Turn.paused waiting :: callers, suspended⟩
          session.scopes ∨
        engine.BringsBack session exchange (Turn.paused waiting) callers suspended message target
          session.scopes) := by
  have hrole : exchange.entry.role = .user := by
    unfold reaction? at hswitch
    split at hswitch
    · assumption
    · cases hswitch
  obtain ⟨turn, named, reaction, hreaction, hopening, htouched, -⟩ :=
    opening_of_frame engine hrole hlevels
  rw [hreaction] at hswitch
  cases reaction with
  | cancel | help | status | stay | goOn => cases hswitch
  | confirm flow => cases hswitch
  | interrupt flow =>
      obtain ⟨waiting, halike, hturn⟩ := htouched.levels_eq hlevels
      have hordered := Turn.switchTo_inOrder (htouched.inOrder horder) hturn flow
      have hparked := Turn.parked_switchTo (htouched.inOrder horder) hturn flow
      rw [htouched.scopes] at hparked
      obtain ⟨hnext, hresponse, htrail⟩ := ran_of_running horder hrole hopening
      exact ⟨waiting, halike, next_of_parked hordered hparked (halike.steps.trans hsteps) rfl hnext
        hresponse htrail hcalm⟩

/-- A level that is parked stays so until the first exchange after which as many levels are left as
there were; that exchange brings it back. -/
theorem brought_back (before : List Exchange) (last : Exchange) {session : Session}
    (horder : session.InOrder)
    (hparked : session.Parked ⟨top :: callers, suspended⟩ scopes)
    (hsteps : top.steps = .ask id message (some target) :: rest)
    (hpending : top.pendingVariable = none)
    (hcalm : ∀ turn ∈ engine.trails session (before ++ [last]), turn.isCalm engine = true)
    (haway : ∀ n, 0 < n → n ≤ before.length →
      (engine.after session (before.take n)).levels.count ≠ suspended.length + 1)
    (hback : (engine.after session (before ++ [last])).levels.count = suspended.length + 1) :
    engine.BringsBack (engine.after session before) last top callers suspended message target
      scopes := by
  induction before generalizing session with
  | nil =>
      rcases next_parked last horder hparked hsteps hpending
        (fun turn hturn => hcalm turn (List.mem_append_left _ hturn)) with hstill | hreturns
      · have hmore := hstill.count_lt
        have hsame : (engine.next session last).levels.count = suspended.length + 1 := hback
        rw [hsame] at hmore
        exact absurd hmore (Nat.lt_irrefl _)
      · exact hreturns
  | cons first before ih =>
      rcases next_parked first horder hparked hsteps hpending
        (fun turn hturn => hcalm turn (List.mem_append_left _ hturn)) with hstill | hreturns
      · refine ih (next_inOrder horder first) hstill ?_ ?_ hback
        · intro turn hturn
          exact hcalm turn (List.mem_append_right _ hturn)
        · intro n hpos hn
          exact haway (n + 1) (Nat.succ_pos n) (Nat.succ_le_succ hn)
      · exact absurd hreturns.count (haway 1 Nat.one_pos (by simp))

/-- What brings back a frame brings back every frame with the same steps, scope and flow. -/
theorem BringsBack.of_same {frame : Frame}
    (h : engine.BringsBack session exchange top callers suspended message target scopes)
    (hsteps : top.steps = frame.steps) (hscope : top.scope = frame.scope)
    (hflow : top.flowName = frame.flowName) :
    engine.BringsBack session exchange frame callers suspended message target scopes := by
  obtain ⟨asking, text, hlevels, hasking, hsame, hwaiting, hshown, hresponse, turn, vars, hlast,
    hblocked, hvars, htext⟩ := h.waits
  have hwording : (turn.stage engine).wordingIn (turn.scene frame vars) message =
      (turn.stage engine).wordingIn (turn.scene top vars) message := by
    simp only [Stage.wordingIn, Stage.render, Stage.scopeIn, Turn.scene, hflow]
  refine ⟨⟨asking, text, hlevels, hasking.trans hsteps, hsame.trans hscope, hwaiting, hshown,
    hresponse, turn, vars, hlast, hblocked, hscope ▸ hvars, htext.trans hwording.symm⟩, ?_⟩
  intro f hf
  rcases Levels.mem_frames.1 hf with hcurrent | hsuspended
  · rcases List.mem_cons.1 hcurrent with rfl | hcaller
    · rw [← hscope]
      exact h.kept top (Levels.mem_frames.2 (.inl List.mem_cons_self))
    · exact h.kept f (Levels.mem_frames.2 (.inl (List.mem_cons_of_mem _ hcaller)))
  · exact h.kept f (Levels.mem_frames.2 (.inr hsuspended))

/-- A flow that waits for an answer is interrupted.  If no round after that reboots or uses up its
budget, then the first exchange after which there are as many levels as before brings the flow back:
its turn asks the question again and waits for the answer, with all frames of the flow's level and
of those below, their steps and their variables as they were. -/
theorem interruption_round_trip (h : engine.Reachable session) {frame : Frame}
    (hlevels : session.levels = ⟨frame :: callers, suspended⟩)
    (hwaiting : frame.pendingVariable = some target) {first : Exchange}
    (hswitch : (engine.reaction? session first).any Reaction.interrupts = true)
    (before : List Exchange) (last : Exchange) (hfirst : (before ++ [last]).head? = some first)
    (hcalm : ∀ turn ∈ engine.trails session (before ++ [last]), turn.isCalm engine = true)
    (haway : ∀ n, 0 < n → n ≤ before.length →
      (engine.after session (before.take n)).levels.count ≠ session.levels.count)
    (hback : (engine.after session (before ++ [last])).levels.count = session.levels.count) :
    ∃ id message rest, frame.steps = .ask id message (some target) :: rest ∧
      engine.BringsBack (engine.after session before) last frame callers suspended message target
        session.scopes := by
  have htop : session.levels.top? = some frame := by rw [hlevels]; rfl
  obtain ⟨id, message, rest, hsteps⟩ := h.asksOnTop.top frame htop target hwaiting
  refine ⟨id, message, rest, hsteps, ?_⟩
  have hcount : session.levels.count = suspended.length + 1 := by rw [hlevels]; rfl
  rw [hcount] at haway hback
  obtain ⟨later, hall⟩ := List.head?_eq_some_iff.1 hfirst
  have hcalmFirst : ∀ turn ∈ engine.trail session first, turn.isCalm engine = true := by
    intro turn hturn
    rw [hall] at hcalm
    exact hcalm turn (List.mem_append_left _ hturn)
  obtain ⟨waiting, halike, hinterrupted⟩ :=
    next_interrupted h.inOrder hlevels hsteps hswitch hcalmFirst
  suffices hbrought : engine.BringsBack (engine.after session before) last (Turn.paused waiting)
      callers suspended message target session.scopes from
    hbrought.of_same halike.steps halike.scope halike.flowName
  -- the flow may come back in the very exchange that interrupts it, and then there is no other
  cases before with
  | nil =>
      cases hall
      rcases hinterrupted with hstill | hreturns
      · have hmore := hstill.count_lt
        have hsame : (engine.next session first).levels.count = suspended.length + 1 := hback
        rw [hsame] at hmore
        exact absurd hmore (Nat.lt_irrefl _)
      · exact hreturns
  | cons other before =>
      cases hall
      rcases hinterrupted with hstill | hreturns
      · exact brought_back before last (next_inOrder h.inOrder first) hstill
          (halike.steps.trans hsteps) rfl
          (fun turn hturn => hcalm turn (List.mem_append_right _ hturn))
          (fun n hpos hn => haway (n + 1) (Nat.succ_pos n) (Nat.succ_le_succ hn)) hback
      · exact absurd hreturns.count (haway 1 Nat.one_pos (by simp))

end Trip

end Engine

namespace Kiosk

/-- The answer to the question of the second flow, which has interrupted the first one, brings the
first one back. -/
theorem order_brought_back :
    ∃ frame, (sessionAfter ["Order"]).levels = ⟨[frame], []⟩ ∧
      ∃ id message rest, frame.steps = .ask id message (some "size") :: rest ∧
        engine.BringsBack (engine.after (sessionAfter ["Order"]) [guest "Weather"]) (guest "Paris")
          frame [] [] message "size" (sessionAfter ["Order"]).scopes := by
  have hshape : (sessionAfter ["Order"]).levels.current.length = 1 ∧
      (sessionAfter ["Order"]).levels.suspended.length = 0 := by decide +kernel
  have htarget : (sessionAfter ["Order"]).levels.top?.bind Frame.pendingVariable = some "size" := by
    decide +kernel
  obtain ⟨frame, hcurrent⟩ := List.length_eq_one_iff.1 hshape.1
  have hlevels : (sessionAfter ["Order"]).levels = ⟨[frame], []⟩ := by
    rw [← hcurrent, ← List.length_eq_zero_iff.1 hshape.2]
  rw [hlevels] at htarget
  refine ⟨frame, hlevels, ?_⟩
  refine Engine.interruption_round_trip (reachable_sessionAfter ["Order"]) hlevels htarget
    (by decide +kernel) [guest "Weather"] (guest "Paris") rfl (by decide +kernel) ?_
    (by decide +kernel)
  intro n hpos hn
  obtain rfl : n = 1 := Nat.le_antisymm hn hpos
  decide +kernel

end Kiosk

end Parley
