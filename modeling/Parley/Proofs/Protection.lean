import Parley.Proofs.Locality

/-!
# When the flows in progress are interrupted

A level is opened in two cases only: the user takes up the question about another
flow, or clearly wishes for another flow while the flow that runs may be left without
a question.  What the flow that runs was called by makes no difference: a flow of high
risk is asked about as long as it runs itself, and not while it waits for a flow that
it has called.
-/

set_option autoImplicit false

namespace Parley

namespace Engine

/-- The input is a command in the place where it stands: a word about what waits for confirmation is
one only if something waits. -/
def obeys (engine : Engine) (frame : Frame) (input : String) : Bool :=
  match Command.ofInput? input, frame.pendingInterruption with
  | some .cancel, _ => true
  | some .help, _ => true
  | some .status, _ => true
  | some .switch, some name => (engine.library.get? name).isSome
  | some .stay, some _ => true
  | _, _ => false

/-- The user takes up the question whether the flow that waits may interrupt the one of the
frame. -/
structure Accepts (engine : Engine) (exchange : Exchange) (frame : Frame) (target : Definition) :
    Prop where
  command : Command.ofInput? exchange.entry.content = some .switch
  waiting : ∃ name, frame.pendingInterruption = some name ∧ engine.library.get? name = some target

/-- The user clearly wishes for another flow than the one of the frame. -/
structure Wishes (engine : Engine) (exchange : Exchange) (frame : Frame) (target : Definition) :
    Prop where
  noCommand : engine.obeys frame exchange.entry.content = false
  strong : (Intent.classify engine exchange.journal exchange.entry.content
    (some frame.flowName)).2 = some ⟨target, .strong⟩
  other : target.name ≠ frame.flowName

end Engine

namespace Turn

variable {engine : Engine} {turn : Turn} {target : Definition}

theorem reactionTo_eq_interrupt {current : String} {intent : Option Intent} :
    reactionTo engine current intent = .interrupt target ↔
      intent = some ⟨target, .strong⟩ ∧ target.name ≠ current ∧
        needsConfirmation engine current = false := by
  constructor
  · intro h
    unfold reactionTo at h
    split at h
    · split at h
      · cases h
      · rename_i hother
        split at h
        · cases h
        · rename_i hrisk
          cases h
          exact ⟨rfl, hother, by simpa using hrisk⟩
    · cases h
  · rintro ⟨rfl, hother, hrisk⟩
    simp [reactionTo, hother, hrisk]

/-- The flow that runs is interrupted if the user accepts that, or wishes for another flow and need
not be asked. -/
theorem react_eq_interrupt {frame : Frame} {input : String} :
    (turn.react engine frame input).2 = .interrupt target ↔
      (Command.ofInput? input = some .switch ∧ ∃ name, frame.pendingInterruption = some name ∧
          engine.library.get? name = some target) ∨
        engine.obeys frame input = false ∧
          reactionTo engine frame.flowName
            (Intent.classify engine turn.journal input (some frame.flowName)).2 =
              .interrupt target := by
  have hconsider (other : Turn) (hjournal : other.journal = turn.journal) :
      (other.consider engine input frame.flowName).2 = reactionTo engine frame.flowName
        (Intent.classify engine turn.journal input (some frame.flowName)).2 := by
    rw [← hjournal]
    rfl
  have hdeclined := hconsider turn.declineInterruption rfl
  have hsame := hconsider turn rfl
  cases hwaiting : frame.pendingInterruption with
  | none =>
      cases hcommand : Command.ofInput? input with
      | none => simp [react, Engine.obeys, hwaiting, hcommand, hsame]
      | some command => cases command <;> simp [react, Engine.obeys, hwaiting, hcommand, hsame]
  | some name =>
      cases hcommand : Command.ofInput? input with
      | none => simp [react, Engine.obeys, hwaiting, hcommand, hdeclined]
      | some command =>
          cases command with
          | switch =>
              cases hflow : engine.library.get? name with
              | none => simp [react, Engine.obeys, hwaiting, hcommand, hflow, hdeclined]
              | some flow => simp [react, Engine.obeys, hwaiting, hcommand, hflow]
          | _ => simp [react, Engine.obeys, hwaiting, hcommand]

end Turn

namespace Engine

variable {engine : Engine} {session : Session} {exchange : Exchange} {target : Definition}

/-- The reaction to what the user says is an interruption in two cases. -/
theorem reaction?_eq_interrupt :
    engine.reaction? session exchange = some (.interrupt target) ↔
      exchange.entry.role = .user ∧ ∃ frame, session.levels.top? = some frame ∧
        (engine.Accepts exchange frame target ∨ engine.Wishes exchange frame target ∧
          Turn.needsConfirmation engine frame.flowName = false) := by
  rcases hlevels : session.levels with ⟨current, suspended⟩
  cases current with
  | nil =>
      have hheard := (Session.touched_hear session exchange.entry).levels_eq_of_nil hlevels
      simp [reaction?, hheard, Levels.top?]
  | cons frame callers =>
      have htop : (session.hear exchange.entry).levels.top? =
          some (frame.record exchange.entry) := by
        rw [Session.levels_hear hlevels]
        rfl
      by_cases hrole : exchange.entry.role = .user
      · -- hearing the input adds to what the frame has seen, and to nothing that matters here
        have hname : (frame.record exchange.entry).flowName = frame.flowName := rfl
        have hpending : (frame.record exchange.entry).pendingInterruption =
            frame.pendingInterruption := rfl
        have hobeys : engine.obeys (frame.record exchange.entry) exchange.entry.content =
            engine.obeys frame exchange.entry.content := by simp only [obeys, hpending]
        have hjournal : (heard session exchange).journal = exchange.journal := rfl
        simp only [reaction?, hrole, if_true, htop, Option.map_some, Option.some.injEq,
          Turn.react_eq_interrupt, Turn.reactionTo_eq_interrupt, true_and, hname, hpending, hobeys,
          hjournal]
        constructor
        · rintro (⟨hcommand, hwaiting⟩ | ⟨hnone, hstrong, hother, hrisk⟩)
          · exact ⟨frame, rfl, .inl ⟨hcommand, hwaiting⟩⟩
          · exact ⟨frame, rfl, .inr ⟨⟨hnone, hstrong, hother⟩, hrisk⟩⟩
        · rintro ⟨top, hframe, haccepts | ⟨hwishes, hrisk⟩⟩
          · obtain rfl := Option.some.inj hframe
            exact .inl ⟨haccepts.command, haccepts.waiting⟩
          · obtain rfl := Option.some.inj hframe
            exact .inr ⟨hwishes.noCommand, hwishes.strong, hwishes.other, hrisk⟩
      · simp [reaction?, hrole]

/-- A level is opened exactly if the flow that runs is interrupted. -/
theorem opens_iff_interrupt (engine : Engine) (horder : session.InOrder)
    (hothers : session.levels.pop.1.Decided) (exchange : Exchange) :
    (∃ beat ∈ engine.beats session exchange, beat.opens = true) ↔
      ∃ target, engine.reaction? session exchange = some (.interrupt target) := by
  rcases hlevels : session.levels with ⟨current, suspended⟩
  constructor
  · rintro ⟨beat, hbeat, hopens⟩
    obtain ⟨-, -, hopened⟩ := beats_opened horder hothers exchange
    obtain ⟨turn, hrole, hopening, rfl⟩ := hopened beat hbeat hopens
    have hmore : session.levels.count < turn.session.levels.count := by
      simpa [Beat.opens] using hopens
    cases current with
    | nil => exact absurd hmore (count_of_opening_idle hlevels hrole hopening).not_gt
    | cons frame callers =>
        obtain ⟨opened, named, reaction, hreaction, hcarried, htouched, -⟩ :=
          opening_of_frame engine hrole hlevels
        obtain ⟨frame', -, hopened⟩ := htouched.levels_eq hlevels
        have hrunning := hcarried.symm.trans hopening
        have hcount : opened.session.levels.count = session.levels.count := by
          rw [hopened, hlevels]
          rfl
        cases reaction with
        | interrupt target => exact ⟨target, hreaction⟩
        | cancel =>
            obtain ⟨cancelled, hcancelled, hdrained, -⟩ := Turn.cancel_running hopened engine
            cases hcancelled.symm.trans hrunning
            rw [hdrained, hlevels] at hmore
            exact absurd hmore (Nat.lt_irrefl _)
        | help | status | confirm target => cases hrunning
        | stay | goOn =>
            cases hrunning
            exact absurd hcount (Nat.ne_of_gt hmore)
  · rintro ⟨target, hreaction⟩
    obtain ⟨hrole, frame, htop, -⟩ := reaction?_eq_interrupt.1 hreaction
    cases current with
    | nil => simp [hlevels, Levels.top?] at htop
    | cons top callers =>
        obtain ⟨opened, named, reaction, hsame, hopening, htouched, -⟩ :=
          opening_of_frame engine hrole hlevels
        rw [hreaction] at hsame
        cases hsame
        obtain ⟨frame', -, hopened⟩ := htouched.levels_eq hlevels
        have hruns : engine.opening? session exchange =
            some (.running (opened.switchTo target)) := by
          simp [opening?, hrole, horder.danglingFrame?, hopening, Turn.carryOut]
        obtain ⟨hcount, -⟩ := switchTo_opens hopened target
        refine ⟨⟨session.levels, none, (opened.switchTo target).session.levels⟩, ?_, ?_⟩
        · simp only [beats, hruns, List.mem_cons_self]
        · have hkept : opened.session.levels.count = session.levels.count := by
            rw [hopened, hlevels]
            rfl
          simp [Beat.opens, hcount, hkept]

/-- A wish is no acceptance. -/
theorem Wishes.not_accepts {frame : Frame} {other : Definition}
    (h : engine.Wishes exchange frame target) : ¬engine.Accepts exchange frame other := by
  intro haccepts
  obtain ⟨name, hwaiting, hflow⟩ := haccepts.waiting
  have hobeys : engine.obeys frame exchange.entry.content = true := by
    simp [obeys, haccepts.command, hwaiting, hflow]
  rw [h.noCommand] at hobeys
  cases hobeys

/-- In every conversation an exchange opens a level exactly if the user accepts the flow that waits
for confirmation, which was asked about in an earlier exchange, or clearly wishes for another flow
while the flow that runs may be left without a question.  So a wish does not interrupt a flow of
high risk that runs itself; the flows that have called the one that runs have no say. -/
theorem level_opened_iff (engine : Engine) (userId id : String) (exchanges : List Exchange)
    (exchange : Exchange) :
    let first := engine.startSession userId id
    let session := engine.after first exchanges
    ((∃ beat ∈ engine.beats session exchange, beat.opens = true) ↔
      exchange.entry.role = .user ∧ ∃ frame target, session.levels.top? = some frame ∧
        (engine.Accepts exchange frame target ∨ engine.Wishes exchange frame target ∧
          Turn.needsConfirmation engine frame.flowName = false)) ∧
    ∀ frame, session.levels.top? = some frame → ∀ target,
      (engine.Accepts exchange frame target →
        ∃ asked, frame.pendingInterruption = some asked.name ∧
          engine.library.get? asked.name = some target ∧
          engine.Asked first exchanges frame asked) ∧
      (engine.Wishes exchange frame target →
        Turn.needsConfirmation engine frame.flowName = true →
        ∀ beat ∈ engine.beats session exchange, beat.opens = false) := by
  intro first session
  have hfirst : engine.Reachable first := .start userId id
  have hsession : engine.Reachable session := hfirst.after exchanges
  have hopened := opens_iff_interrupt engine hsession.inOrder hsession.others exchange
  have hiff : (∃ beat ∈ engine.beats session exchange, beat.opens = true) ↔
      exchange.entry.role = .user ∧ ∃ frame target, session.levels.top? = some frame ∧
        (engine.Accepts exchange frame target ∨ engine.Wishes exchange frame target ∧
          Turn.needsConfirmation engine frame.flowName = false) := by
    rw [hopened]
    constructor
    · rintro ⟨target, hreaction⟩
      obtain ⟨hrole, frame, htop, hcause⟩ := reaction?_eq_interrupt.1 hreaction
      exact ⟨hrole, frame, target, htop, hcause⟩
    · rintro ⟨hrole, frame, target, htop, hcause⟩
      exact ⟨target, reaction?_eq_interrupt.2 ⟨hrole, frame, htop, hcause⟩⟩
  refine ⟨hiff, fun frame htop target => ⟨fun haccepts => ?_, fun hwishes hrisk beat hbeat => ?_⟩⟩
  · obtain ⟨name, hwaiting, hflow⟩ := haccepts.waiting
    obtain ⟨asked, rfl, hasked⟩ := asked_of_waiting hfirst rfl exchanges htop hwaiting
    exact ⟨asked, hwaiting, hflow, hasked⟩
  · by_contra hopens
    obtain ⟨-, top, other, htop', hcause⟩ := hiff.1 ⟨beat, hbeat, by simpa using hopens⟩
    obtain rfl := Option.some.inj (htop.symm.trans htop')
    rcases hcause with haccepts | ⟨-, hfree⟩
    · exact hwishes.not_accepts haccepts
    · exact absurd (hrisk.symm.trans hfree) (by decide)

end Engine

namespace Kiosk

/-- A guest who pays is asked for the details by the flow that was called; the payment waits for
it. -/
theorem payment_waits :
    (cashDeskAfter ["Payment"]).levels.top?.map Frame.flowName = some "Details" ∧
      ((cashDeskAfter ["Payment"]).levels.current.any fun frame =>
        Turn.needsConfirmation cashDesk frame.flowName) = true := by decide +kernel

/-- The wish for the weather opens a level there. -/
theorem weather_opens :
    (cashDesk.beats (cashDeskAfter ["Payment"]) (guest "Weather")).any Beat.opens = true := by
  decide +kernel

/-- It does so because of the flow that was called, which may be left without a question. -/
theorem details_yield :
    ∃ frame target, (cashDeskAfter ["Payment"]).levels.top? = some frame ∧
      frame.flowName = "Details" ∧ cashDesk.Wishes (guest "Weather") frame target ∧
      Turn.needsConfirmation cashDesk frame.flowName = false := by
  obtain ⟨hiff, -⟩ := cashDesk.level_opened_iff "guest" "desk" (["Payment"].map guest)
    (guest "Weather")
  obtain ⟨beat, hbeat, hopens⟩ := List.any_eq_true.1 weather_opens
  obtain ⟨-, frame, target, htop, hcause⟩ := hiff.1 ⟨beat, hbeat, hopens⟩
  have htop' : (cashDeskAfter ["Payment"]).levels.top? = some frame := htop
  obtain ⟨hname, -⟩ := payment_waits
  rw [htop'] at hname
  refine ⟨frame, target, htop', Option.some.inj hname, ?_⟩
  rcases hcause with haccepts | hwishes
  · exact absurd haccepts.command (by decide +kernel)
  · exact hwishes

/-- So a flow of high risk that waits for one it has called is interrupted without a question. -/
theorem payment_not_protected :
    ¬∀ texts text,
      (∃ frame ∈ (cashDeskAfter texts).levels.current,
        Turn.needsConfirmation cashDesk frame.flowName = true) →
      ∀ beat ∈ cashDesk.beats (cashDeskAfter texts) (guest text), beat.opens = true →
        Command.ofInput? text = some .switch ∧
          ∃ frame name, (cashDeskAfter texts).levels.top? = some frame ∧
            frame.pendingInterruption = some name := by
  intro h
  obtain ⟨beat, hbeat, hopens⟩ := List.any_eq_true.1 weather_opens
  obtain ⟨-, hwaits⟩ := payment_waits
  obtain ⟨frame, hframe, hrisk⟩ := List.any_eq_true.1 hwaits
  obtain ⟨hcommand, -⟩ := h ["Payment"] "Weather" ⟨frame, hframe, hrisk⟩ beat hbeat hopens
  exact absurd hcommand (by decide +kernel)

end Kiosk

end Parley
