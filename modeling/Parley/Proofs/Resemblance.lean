import Parley.Proofs.Budget
import Parley.Proofs.Isolation
import Parley.Proofs.MirroredTurns

/-!
# Conversations that resemble each other

If two sessions resemble each other and what happens outside is answered alike, then
the same entry is refused by both for the same reason, or both give the same response
and resemble each other again.
-/

set_option autoImplicit false

namespace Parley

/-! ## Runs -/

namespace Turn

variable {engine : Engine} {a b : Turn}

theorem Runs.resembles {trail : List Turn} {final : Turn} (hrun : Runs engine a trail final)
    (h : a.Resembles engine b) (horder : a.session.InOrder) :
    ∃ others last, Runs engine b others last ∧ final.Resembles engine last := by
  induction hrun generalizing b with
  | last hended =>
      have hrounds := h.round horder
      rw [hended] at hrounds
      generalize hround : b.round engine = round at hrounds
      cases hrounds with
      | @ended final last hsame => exact ⟨[b], last, .last hround, hsame⟩
  | more honward hrest ih =>
      have hrounds := h.round horder
      rw [honward] at hrounds
      generalize hround : b.round engine = round at hrounds
      cases hrounds with
      | @onward next other hsame =>
          obtain ⟨others, last, hothers, hfinal⟩ := ih hsame (round_inOrder horder honward)
          exact ⟨b :: others, last, .more hround hothers, hfinal⟩

theorem Resembles.drive (h : a.Resembles engine b) (horder : a.session.InOrder) :
    (a.drive engine).Resembles engine (b.drive engine) := by
  obtain ⟨others, last, hothers, hfinal⟩ := (runs_drive engine a).resembles h horder
  obtain ⟨-, rfl⟩ := runs_iff.1 hothers
  exact hfinal

/-- Turns that resemble each other give the same response. -/
theorem Resembles.run (h : a.Resembles engine b) (horder : a.session.InOrder) :
    (a.run engine).1.Resembles engine (b.run engine).1 ∧
      (b.run engine).2 = (a.run engine).2 := by
  obtain ⟨rename, hdriven⟩ := h.drive horder
  obtain ⟨hsession, hresponse⟩ := hdriven.session.collectScopes.flush
  exact ⟨⟨rename, hdriven.withSession hsession⟩, hresponse⟩

end Turn

/-! ## How turns begin -/

/-- The model takes an input for the same intent. -/
theorem Engine.AnswersAlike.classify {engine : Engine} {a b : Journal}
    (h : engine.AnswersAlike a b) (input : String) (current : Option String) :
    (Intent.classify engine b input current).2 = (Intent.classify engine a input current).2 ∧
      engine.AnswersAlike (Intent.classify engine a input current).1
        (Intent.classify engine b input current).1 := by
  obtain ⟨hreply, hjournals⟩ := h.ask ⟨Intent.instruction engine.library current, input⟩
  unfold Intent.classify
  generalize engine.ask a _ = left at hreply hjournals ⊢
  generalize engine.ask b _ = right at hreply hjournals ⊢
  obtain ⟨journal, reply⟩ := left
  obtain ⟨journal', reply'⟩ := right
  obtain rfl : reply' = reply := hreply
  cases reply' with
  | ok reply => exact ⟨rfl, hjournals⟩
  | error reason => exact ⟨rfl, hjournals⟩

namespace Turn

variable {engine : Engine} {a b : Turn}

namespace Mirrors

variable {rename : Nat → Nat}

theorem declineInterruption (h : a.Mirrors engine rename b) :
    a.declineInterruption.Mirrors engine rename b.declineInterruption :=
  h.modifyTop (fun frame => { frame with pendingInterruption := none }) (fun _ => rfl)
    fun _ => rfl

theorem consider (h : a.Mirrors engine rename b) (input current : String) :
    (a.consider engine input current).1.Mirrors engine rename
        (b.consider engine input current).1 ∧
      (b.consider engine input current).2 = (a.consider engine input current).2 := by
  obtain ⟨hintent, hjournals⟩ := h.journal.classify input (some current)
  refine ⟨h.withJournal hjournals, ?_⟩
  exact congrArg (reactionTo engine current) hintent

theorem react (h : a.Mirrors engine rename b) (frame : Frame) (input : String) :
    (a.react engine frame input).1.Mirrors engine rename
        (b.react engine (frame.renamed rename) input).1 ∧
      (b.react engine (frame.renamed rename) input).2 = (a.react engine frame input).2 := by
  have hdeclined := h.declineInterruption
  have hpending : (frame.renamed rename).pendingInterruption = frame.pendingInterruption := rfl
  have hflow : (frame.renamed rename).flowName = frame.flowName := rfl
  unfold Turn.react
  rw [hpending, hflow]
  split
  · exact ⟨h, rfl⟩
  · exact ⟨h, rfl⟩
  · exact ⟨h, rfl⟩
  · rename_i target hcommand hwaiting
    cases engine.library.get? target with
    | none => exact hdeclined.consider input frame.flowName
    | some flow => exact ⟨hdeclined, rfl⟩
  · exact ⟨hdeclined, rfl⟩
  · exact hdeclined.consider input frame.flowName
  · exact h.consider input frame.flowName

theorem cancel (h : a.Mirrors engine rename b) :
    (a.cancel engine).Resembles engine (b.cancel engine) := by
  have hlast : b.session.levels.current.getLast? =
      a.session.levels.current.getLast?.map (Frame.renamed rename) := by
    obtain ⟨_, journal, ⟨scopes, lastEntry, history, h⟩, hjournal⟩ := h
    exact List.getLast?_map
  unfold Turn.cancel
  rw [hlast]
  cases a.session.levels.current.getLast? with
  | none => exact .answered _ ⟨rename, h⟩
  | some frame => exact .running ⟨rename, (h.drain.tell _).withoutInput⟩

theorem interrupt (h : a.Mirrors engine rename b) :
    (a.withLevels a.session.levels.interrupt).Mirrors engine rename
      (b.withLevels b.session.levels.interrupt) :=
  h.withLevels Levels.interrupt (fun _ => rfl) fun _ f hf => ⟨f, hf, rfl⟩

theorem switchTo (h : a.Mirrors engine rename b) (flow : Definition) :
    (a.switchTo flow).Resembles engine (b.switchTo flow) := by
  have hpaused := h.modifyTop paused (fun _ => rfl) fun _ => rfl
  obtain ⟨other, hactivated⟩ := hpaused.interrupt.activate flow "interruption"
  exact ⟨other, hactivated.withoutInput⟩

theorem carryOut (h : a.Mirrors engine rename b) (frame : Frame) (reaction : Reaction) :
    (a.carryOut engine frame reaction).Resembles engine
      (b.carryOut engine (frame.renamed rename) reaction) := by
  cases reaction with
  | cancel => exact h.cancel
  | help => exact .answered _ ⟨rename, h⟩
  | status =>
      have hcount : b.session.levels.frames.length = a.session.levels.frames.length := by
        obtain ⟨_, journal, ⟨scopes, lastEntry, history, h⟩, hjournal⟩ := h
        simp [Levels.frames_renamed]
      have hreport : b.status engine (frame.renamed rename) = a.status engine frame := by
        unfold Turn.status
        rw [hcount]
        rfl
      simp only [Turn.carryOut, hreport]
      exact .answered _ ⟨rename, h⟩
  | stay => exact .running ⟨rename, (h.tell _).withoutInput⟩
  | confirm target =>
      have hrequested := h.modifyTop
        (fun frame => { frame with pendingInterruption := some target.name }) (fun _ => rfl)
        fun _ => rfl
      exact .answered _ ⟨rename, hrequested⟩
  | interrupt target => exact .running (h.switchTo target)
  | goOn => exact .running ⟨rename, h⟩

theorem handleInput (h : a.Mirrors engine rename b) (frame : Frame) (input : String) :
    (a.handleInput engine frame input).Resembles engine
      (b.handleInput engine (frame.renamed rename) input) := by
  obtain ⟨hturns, hreaction⟩ := h.react frame input
  rw [handleInput_eq, handleInput_eq, hreaction]
  exact hturns.carryOut frame _

theorem welcome (h : a.Mirrors engine rename b) (input : String) :
    (a.welcome engine input).Resembles engine (b.welcome engine input) := by
  obtain ⟨hintent, hjournals⟩ := h.journal.classify input none
  unfold Turn.welcome
  generalize Intent.classify engine a.journal input none = left at hintent hjournals ⊢
  generalize Intent.classify engine b.journal input none = right at hintent hjournals ⊢
  obtain ⟨journal, intent⟩ := left
  obtain ⟨journal', intent'⟩ := right
  obtain rfl : intent' = intent := hintent
  have hasked := h.withJournal hjournals
  simp only
  split
  · exact .answered _ ⟨rename, hasked⟩
  · exact .answered _ ⟨rename, hasked⟩
  · obtain ⟨other, hactivated⟩ := hasked.activate _ "user"
    exact .running ⟨other, hactivated.withoutInput⟩

end Mirrors

end Turn

namespace Engine

variable {engine : Engine} {a b : Session} {x y : Exchange}

/-- The same entry comes in two conversations, and what happened outside is answered alike. -/
structure SameExchange (engine : Engine) (x y : Exchange) : Prop where
  entry : y.entry = x.entry
  journal : engine.AnswersAlike x.journal y.journal

/-- Both entries are refused for the same reason, or both are taken with the same response and leave
sessions that resemble each other; what happened outside is answered alike. -/
inductive ResemblingUpdate (engine : Engine) :
    Journal × Except EngineError (Option String × Session) →
    Journal × Except EngineError (Option String × Session) → Prop where
  | refused {journal past : Journal} (error : EngineError)
      (hjournal : engine.AnswersAlike journal past) :
      ResemblingUpdate engine (journal, .error error) (past, .error error)
  | taken {journal past : Journal} (response : Option String) {a b : Session}
      (hjournal : engine.AnswersAlike journal past) (h : a.Resembles b) :
      ResemblingUpdate engine (journal, .ok (response, a)) (past, .ok (response, b))

theorem ResemblingUpdate.next (hbefore : a.Resembles b)
    (h : ResemblingUpdate engine (engine.update x.journal a x.entry)
      (engine.update y.journal b y.entry)) :
    (engine.next a x).Resembles (engine.next b y) := by
  unfold Engine.next
  generalize engine.update x.journal a x.entry = left at h ⊢
  generalize engine.update y.journal b y.entry = right at h ⊢
  cases h with
  | refused error hjournal => exact hbefore
  | taken response hjournal hsessions => exact hsessions

theorem opening_resembles (h : a.Resembles b) (hsame : engine.SameExchange x y) :
    (engine.opening x.journal a x.entry).Resembles engine
      (engine.opening y.journal b y.entry) := by
  obtain ⟨rename, h⟩ := h
  have hheard := h.hear x.entry
  have hturns := Turn.Mirrors.start hheard hsame.journal (some x.entry.content)
  rw [hsame.entry]
  unfold Engine.opening
  simp only [hheard.top?]
  cases (a.hear x.entry).levels.top? with
  | none => exact hturns.welcome x.entry.content
  | some frame => exact hturns.handleInput frame x.entry.content

theorem finish_resembles {opening other : Opening} (h : opening.Resembles engine other)
    (horder : opening.turn.session.InOrder) :
    (opening.finish engine).1.Resembles engine (other.finish engine).1 ∧
      (other.finish engine).2 = (opening.finish engine).2 := by
  cases h with
  | answered response h => exact ⟨h, rfl⟩
  | running h => exact h.run horder

theorem update_resembles (ha : a.InOrder) (hb : b.InOrder) (h : a.Resembles b)
    (hsame : engine.SameExchange x y) :
    ResemblingUpdate engine (engine.update x.journal a x.entry)
      (engine.update y.journal b y.entry) := by
  have hentry := hsame.entry
  cases hrole : x.entry.role with
  | user =>
      obtain ⟨⟨rename, hturns⟩, hresponse⟩ := finish_resembles (opening_resembles h hsame)
        (opening_inOrder engine ha hrole)
      rw [update_of_user ha hrole rfl, update_of_user hb (by rw [hentry, hrole]) rfl, hresponse]
      exact .taken _ hturns.journal ⟨rename, hturns.session⟩
  | assistant =>
      obtain ⟨rename, h⟩ := h
      simp only [update, hentry, hrole]
      exact .taken _ hsame.journal ⟨rename, h.note x.entry⟩
  | tool | system =>
      simp only [update, hentry, hrole]
      exact .refused _ hsame.journal

/-- As long as the same entries come, two sessions that resemble each other cannot be told apart. -/
theorem after_resembles (ha : engine.Reachable a) (hb : engine.Reachable b) (h : a.Resembles b)
    {xs ys : List Exchange} (hsame : List.Forall₂ engine.SameExchange xs ys) :
    (engine.after a xs).Resembles (engine.after b ys) := by
  induction hsame generalizing a b with
  | nil => exact h
  | cons hfirst hlater ih =>
      exact ih (ha.next _) (hb.next _) ((update_resembles ha.inOrder hb.inOrder h hfirst).next h)

end Engine

end Parley
