import Parley.Proofs.Agendas
import Parley.Proofs.Echoes
import Parley.Proofs.Libraries
import Parley.Proofs.Resemblance

/-!
# Asides

What the assistant says is only noted, and a request for help or for the status is
answered without a step and without the model.  All that such an aside leaves in the
session is what has been said.  So whatever asides come in between, the conversation
goes on as it would without them, unless the model makes up the arguments of a tool
from what has been said.
-/

set_option autoImplicit false

namespace Parley

/-- The step, and whatever it may put in its place, gives the arguments of the tools that it
calls. -/
def Step.Explicit (registry : Registry) (step : Step) : Prop :=
  ∀ next, Relation.ReflTransGen Step.Yields step next → next.ArgumentsGiven registry

/-- The flows of the engine give the arguments of every tool with parameters that they call. -/
def Engine.Explicit (engine : Engine) : Prop :=
  ∀ flow ∈ engine.library.flows, ∀ step ∈ flow.steps, step.Explicit engine.registry

/-- It is enough that a property of steps that implies it is kept by what takes their places. -/
theorem Step.explicit_of_kept {registry : Registry} {P : Step → Prop}
    (hgiven : ∀ step, P step → step.ArgumentsGiven registry)
    (hyields : ∀ step next : Step, P step → step.Yields next → P next) {step : Step}
    (h : P step) : step.Explicit registry := by
  intro next hlater
  apply hgiven
  induction hlater with
  | refl => exact h
  | tail _ hnext ih => exact hyields _ _ ih hnext

/-- An entry that asks nothing of the flows in progress: the assistant has said something, or the
user wants an explanation or a report while a flow is in progress. -/
inductive Session.Aside (session : Session) (entry : Entry) : Prop where
  | said (hrole : entry.role = .assistant)
  | asked (hrole : entry.role = .user) (hrunning : session.levels.top?.isSome = true)
      (hcommand : Command.ofInput? entry.content = some .help ∨
        Command.ofInput? entry.content = some .status)

/-! ## How turns begin -/

/-- Both are answered with the same response, or both run, with turns that echo each other. -/
inductive Opening.Echoes (engine : Engine) : Opening → Opening → Prop where
  | answered {a b : Turn} (response : Option String) (h : a.Echoes engine b) :
      Echoes engine (.answered a response) (.answered b response)
  | running {a b : Turn} (h : a.Echoes engine b) : Echoes engine (.running a) (.running b)

namespace Turn.Echoes

variable {engine : Engine} {a b : Turn} {frame other : Frame}

theorem declineInterruption (h : a.Echoes engine b) :
    a.declineInterruption.Echoes engine b.declineInterruption :=
  h.modifyTop _ fun _ _ => rfl

theorem consider (h : a.Echoes engine b) (input current : String) :
    (a.consider engine input current).1.Echoes engine (b.consider engine input current).1 ∧
      (b.consider engine input current).2 = (a.consider engine input current).2 := by
  obtain ⟨hintent, hjournals⟩ := h.journal.classify input (some current)
  exact ⟨h.withJournal hjournals, congrArg (reactionTo engine current) hintent⟩

theorem react (h : a.Echoes engine b) (hframe : frame.Echoes other) (input : String) :
    (a.react engine frame input).1.Echoes engine (b.react engine other input).1 ∧
      (b.react engine other input).2 = (a.react engine frame input).2 := by
  obtain ⟨context⟩ := hframe
  have hdeclined := h.declineInterruption
  unfold Turn.react
  simp only
  split
  · exact ⟨h, rfl⟩
  · exact ⟨h, rfl⟩
  · exact ⟨h, rfl⟩
  · rename_i target hcommand hwaiting
    cases engine.library.get? target with
    | none => exact hdeclined.consider input frame.flowName
    | some flow => exact ⟨hdeclined, rfl⟩
  · exact ⟨hdeclined, rfl⟩
  · exact hdeclined.consider input frame.flowName
  · exact h.consider input frame.flowName

theorem cancel (h : a.Echoes engine b) : (a.cancel engine).Echoes engine (b.cancel engine) := by
  have hdrained := h.withLevels h.session.levels.drain
  have hlast := h.session.levels.first?
  unfold Turn.cancel
  generalize a.session.levels.current.getLast? = last at hlast ⊢
  generalize b.session.levels.current.getLast? = last' at hlast ⊢
  cases hlast with
  | none => exact .answered _ h
  | some hframe =>
      obtain ⟨context⟩ := hframe
      exact .running (hdrained.tell _).withoutInput

theorem switchTo (h : a.Echoes engine b) (flow : Definition) :
    (a.switchTo flow).Echoes engine (b.switchTo flow) := by
  have hpaused := h.modifyTop paused fun _ _ => rfl
  have hinterrupted := hpaused.withLevels hpaused.session.levels.interrupt
  exact (hinterrupted.activate flow "interruption").withoutInput

theorem carryOut (h : a.Echoes engine b) (hframe : frame.Echoes other) (reaction : Reaction) :
    (a.carryOut engine frame reaction).Echoes engine (b.carryOut engine other reaction) := by
  obtain ⟨context⟩ := hframe
  cases reaction with
  | cancel => exact h.cancel
  | help => exact .answered _ h
  | status =>
      have hcount := h.session.levels.frames.length_eq
      simp only [Turn.carryOut, Turn.status, hcount]
      exact .answered _ h
  | stay => exact .running (h.tell _).withoutInput
  | confirm target => exact .answered _ (h.modifyTop _ fun _ _ => rfl)
  | interrupt target => exact .running (h.switchTo target)
  | goOn => exact .running h

theorem welcome (h : a.Echoes engine b) (input : String) :
    (a.welcome engine input).Echoes engine (b.welcome engine input) := by
  obtain ⟨hintent, hjournals⟩ := h.journal.classify input none
  unfold Turn.welcome
  generalize Intent.classify engine a.journal input none = left at hintent hjournals ⊢
  generalize Intent.classify engine b.journal input none = right at hintent hjournals ⊢
  obtain ⟨journal, intent⟩ := left
  obtain ⟨journal', intent'⟩ := right
  obtain rfl : intent' = intent := hintent
  have hasked := h.withJournal hjournals
  simp only
  split
  · exact .answered _ hasked
  · exact .answered _ hasked
  · exact .running (hasked.activate _ "user").withoutInput

end Turn.Echoes

/-! ## Conversations -/

namespace Engine

variable {engine : Engine} {session a b : Session} {x y aside : Exchange}

/-- Both entries are refused for the same reason, or both are taken with the same response and leave
sessions that echo each other; what happened outside is answered alike. -/
inductive EchoingUpdate (engine : Engine) :
    Journal × Except EngineError (Option String × Session) →
    Journal × Except EngineError (Option String × Session) → Prop where
  | refused {journal past : Journal} (error : EngineError)
      (hjournal : engine.AnswersAlike journal past) :
      EchoingUpdate engine (journal, .error error) (past, .error error)
  | taken {journal past : Journal} (response : Option String) {a b : Session}
      (hjournal : engine.AnswersAlike journal past) (h : a.Echoes b) :
      EchoingUpdate engine (journal, .ok (response, a)) (past, .ok (response, b))

/-- The second conversation is the first one with asides in it. -/
inductive WithAsides (engine : Engine) : Session → List Exchange → List Exchange → Prop where
  | nil (session : Session) : WithAsides engine session [] []
  | aside {session : Session} {aside : Exchange} {xs ys : List Exchange}
      (haside : session.Aside aside.entry)
      (hlater : WithAsides engine (engine.next session aside) xs ys) :
      WithAsides engine session xs (aside :: ys)
  | same {session : Session} {x y : Exchange} {xs ys : List Exchange}
      (hsame : engine.SameExchange x y)
      (hlater : WithAsides engine (engine.next session y) xs ys) :
      WithAsides engine session (x :: xs) (y :: ys)

theorem EchoingUpdate.next (hbefore : a.Echoes b)
    (h : EchoingUpdate engine (engine.update x.journal a x.entry)
      (engine.update y.journal b y.entry)) :
    (engine.next a x).Echoes (engine.next b y) := by
  unfold Engine.next
  generalize engine.update x.journal a x.entry = left at h ⊢
  generalize engine.update y.journal b y.entry = right at h ⊢
  cases h with
  | refused error hjournal => exact hbefore
  | taken response hjournal hsessions => exact hsessions

theorem opening_echoes (h : a.Echoes b) (hsame : engine.SameExchange x y) :
    (engine.opening x.journal a x.entry).Echoes engine
      (engine.opening y.journal b y.entry) := by
  have hheard := h.hear x.entry
  have hturns := Turn.Echoes.start hheard hsame.journal (some x.entry.content)
  have htop := hheard.levels.top?
  rw [hsame.entry]
  unfold Engine.opening
  simp only
  generalize (a.hear x.entry).levels.top? = top at htop ⊢
  generalize (b.hear x.entry).levels.top? = other at htop ⊢
  cases htop with
  | none => exact hturns.welcome x.entry.content
  | some hframe =>
      obtain ⟨hreacted, hreaction⟩ := hturns.react hframe x.entry.content
      simp only [Turn.handleInput_eq, hreaction]
      exact hreacted.carryOut hframe _

theorem finish_echoes {opening other : Opening} (h : opening.Echoes engine other)
    (hgiven : ∀ turn, opening = .running turn → ∀ round ∈ turn.trail engine, ∀ frame step,
      round.task engine = .dispatch frame step → step.ArgumentsGiven engine.registry) :
    (opening.finish engine).1.Echoes engine (other.finish engine).1 ∧
      (other.finish engine).2 = (opening.finish engine).2 := by
  cases h with
  | answered response h => exact ⟨h, rfl⟩
  | running h => exact h.run (hgiven _ rfl)

/-- If the flows give all arguments, the model is never asked for arguments. -/
theorem Explicit.given (hexplicit : engine.Explicit) (h : engine.Reachable session) {turn : Turn}
    (hturn : turn ∈ engine.trail session x) {frame : Frame} {step : Step}
    (htask : turn.task engine = .dispatch frame step) : step.ArgumentsGiven engine.registry := by
  have hkept : Agenda.Kept engine.library fun agenda =>
      ∀ step ∈ agenda.steps, step.Explicit engine.registry := by
    apply Agenda.kept_of_yields
    · exact fun key flow hflow => hexplicit flow (Library.mem_of_get? hflow)
    · exact fun step next hstep hyields later hlater => hstep later (hlater.head hyields)
  exact h.dispatched hkept hturn htask step .refl

theorem update_echoes (hexplicit : engine.Explicit) (ha : engine.Reachable a)
    (hb : engine.Reachable b) (h : a.Echoes b) (hsame : engine.SameExchange x y) :
    EchoingUpdate engine (engine.update x.journal a x.entry)
      (engine.update y.journal b y.entry) := by
  have hentry := hsame.entry
  cases hrole : x.entry.role with
  | user =>
      obtain ⟨hturns, hresponse⟩ := finish_echoes (opening_echoes h hsame) (by
        intro turn hopening round hround frame step htask
        rw [← (ran_of_running ha.inOrder hrole hopening).2.2] at hround
        exact hexplicit.given ha hround htask)
      rw [update_of_user ha.inOrder hrole rfl,
        update_of_user hb.inOrder (by rw [hentry, hrole]) rfl, hresponse]
      exact .taken _ hturns.journal hturns.session
  | assistant =>
      simp only [update, hentry, hrole]
      exact .taken _ hsame.journal (h.note x.entry)
  | tool | system =>
      simp only [update, hentry, hrole]
      exact .refused _ hsame.journal

/-- A request for help or for the status is answered at once; the session has only heard it. -/
theorem opening_aside (hrunning : b.levels.top?.isSome = true)
    (hcommand : Command.ofInput? aside.entry.content = some .help ∨
      Command.ofInput? aside.entry.content = some .status) :
    ∃ text, engine.opening aside.journal b aside.entry =
      .answered (heard b aside) (some text) := by
  have htop := ((Session.Echoes.refl b).heard aside.entry).levels.top?
  unfold opening
  simp only
  generalize b.levels.top? = top at htop hrunning
  generalize (b.hear aside.entry).levels.top? = other at htop ⊢
  cases htop with
  | none => cases hrunning
  | @some frame other hframe =>
      rcases hcommand with hhelp | hstatus
      · simp only [Turn.handleInput, Turn.react, hhelp]
        exact ⟨_, rfl⟩
      · simp only [Turn.handleInput, Turn.react, hstatus]
        exact ⟨_, rfl⟩

/-- After an aside a session still echoes what it has echoed before. -/
theorem next_aside (hb : b.InOrder) (h : a.Echoes b) (haside : b.Aside aside.entry) :
    a.Echoes (engine.next b aside) := by
  cases haside with
  | said hrole =>
      simp only [next, update, hrole]
      exact h.noted aside.entry
  | asked hrole hrunning hcommand =>
      obtain ⟨text, hopening⟩ := opening_aside hrunning hcommand
      unfold next
      rw [update_of_user hb hrole hopening]
      exact h.heard aside.entry

theorem after_echoes (hexplicit : engine.Explicit) (ha : engine.Reachable a)
    (hb : engine.Reachable b) (h : a.Echoes b) {xs ys : List Exchange}
    (hasides : engine.WithAsides b xs ys) : (engine.after a xs).Echoes (engine.after b ys) := by
  induction hasides generalizing a with
  | nil b => exact h
  | aside haside hlater ih => exact ih ha (hb.next _) (next_aside hb.inOrder h haside)
  | same hsame hlater ih =>
      exact ih (ha.next _) (hb.next _) ((update_echoes hexplicit ha hb h hsame).next h)

/-- Asides leave no trace.  If the flows give the arguments of the tools that they call, then a
conversation with asides in it leads to the same session as without them but for what has been
said, and from then on every entry is taken or refused alike: with the same response or for the same
reason, as long as the model, the tools and the clock answer alike. -/
theorem asides_leave_no_trace (hexplicit : engine.Explicit) (h : engine.Reachable session)
    {xs ys : List Exchange} (hasides : engine.WithAsides session xs ys) :
    (engine.after session xs).Echoes (engine.after session ys) ∧
      ∀ x y, engine.SameExchange x y →
        EchoingUpdate engine (engine.update x.journal (engine.after session xs) x.entry)
          (engine.update y.journal (engine.after session ys) y.entry) := by
  have hafter := after_echoes hexplicit h h (.refl session) hasides
  exact ⟨hafter, fun x y hsame => update_echoes hexplicit (h.after xs) (h.after ys) hafter hsame⟩

end Engine

/-! ## A reservation with asides -/

namespace Kiosk

/-- The tool "reserve" is called with the number of guests. -/
def reserve : Step :=
  .callTool "reserve"
    ⟨"reserve", some (.obj [("guests", .str "\x7b\x7bguests\x7d\x7d")]), none, none, 0⟩ none

/-- An engine with a flow that asks for this number and then makes the call. -/
def reception : Engine :=
  { engine with
    library := stocked [{ flow "Table" "How many guests?" "guests" with
      steps := [.ask "question" (.plain "How many guests?") (some "guests"), reserve,
        .say "thanks" (.plain "Thanks")] }]
    registry := ⟨[("reserve", { seats with
      parameters := .obj [("properties", .obj [("guests", .obj [])])] })]⟩
    invoker := fun _ _ _ => .now (.ok (.bool true)) }

theorem reception_explicit : reception.Explicit := by
  intro flow hflow step hstep
  obtain rfl := List.mem_singleton.1 hflow
  apply Step.explicit_of_kept (P := fun step => step.kind = .ask ∨ step.kind = .say ∨
    ∃ id call, step = .callTool id call none ∧ call.args ≠ none)
  · rintro step (hask | hsay | ⟨id, call, rfl, hargs⟩)
    · rintro id call onFail rfl
      cases hask
    · rintro id call onFail rfl
      cases hsay
    · intro _ _ _ hcall _ _ _
      cases hcall
      exact hargs
  · rintro step next (hask | hsay | ⟨id, call, rfl, hargs⟩) hnext
    · cases hnext <;> cases hask
    · cases hnext <;> cases hsay
    · cases hnext
      exact .inr (.inr ⟨_, _, rfl, hargs⟩)
  · simp only [List.mem_cons, List.not_mem_nil, or_false] at hstep
    rcases hstep with rfl | rfl | rfl
    · exact .inl rfl
    · exact .inr (.inr ⟨_, _, rfl, nofun⟩)
    · exact .inr (.inl rfl)

/-- The session of a guest who has said some things at the reception. -/
def receptionAfter (exchanges : List Exchange) : Session :=
  reception.after (reception.startSession "guest" "kiosk") exchanges

/-- What comes up before a guest answers the question. -/
def interlude : List Exchange :=
  [⟨.empty, .assistant "There is a terrace"⟩, guest "help", guest "status"]

/-- A guest who has to answer a question hears something from the assistant and asks for help and
for the status before answering: the table is reserved as if the guest had answered at once. -/
theorem reservation_undisturbed :
    (receptionAfter [guest "Table"]).Echoes (receptionAfter (guest "Table" :: interlude)) ∧
      Engine.EchoingUpdate reception
        (reception.update .empty (receptionAfter [guest "Table"]) ⟨.user, "4"⟩)
        (reception.update .empty (receptionAfter (guest "Table" :: interlude)) ⟨.user, "4"⟩) ∧
      reception.response? (receptionAfter (guest "Table" :: interlude)) (guest "4") =
        some "Thanks" := by
  have hsame : ∀ text, reception.SameExchange (guest text) (guest text) := fun _ =>
    ⟨rfl, fun _ => rfl, fun _ => rfl, fun _ => rfl⟩
  have hasides : reception.WithAsides (reception.startSession "guest" "kiosk")
      [guest "Table"] (guest "Table" :: interlude) := by
    refine .same (hsame "Table") (.aside (.said rfl) (.aside (.asked rfl ?_ (.inl ?_))
      (.aside (.asked rfl ?_ (.inr ?_)) (.nil _))))
    all_goals decide +kernel
  obtain ⟨hafter, hupdate⟩ :=
    Engine.asides_leave_no_trace reception_explicit (.start "guest" "kiosk") hasides
  exact ⟨hafter, hupdate (guest "4") (guest "4") (hsame "4"), by decide +kernel⟩

end Kiosk

end Parley
