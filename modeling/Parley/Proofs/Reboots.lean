import Parley.Proofs.Hearing
import Parley.Proofs.Questions
import Parley.Proofs.Resemblance

/-!
# Reboots

A reboot gives up all levels and starts one flow, whose variables come from the
globals of the session and from the flow itself.  Of the turn before it nothing is
left but the messages, the steps taken and an input that no frame waits for, so two
turns that agree on these cannot be told apart from then on.
-/

set_option autoImplicit false

namespace Parley

namespace Turn

variable {engine : Engine} {turn a b : Turn}

/-- The step and the target of a reboot that is dispatched. -/
def Task.reboot? : Task → Option (String × String)
  | .dispatch _ (.callFlow id key .reboot) => some (id, key)
  | _ => none

theorem Task.reboot?_eq_some {task : Task} {id key : String} :
    task.reboot? = some (id, key) ↔
      ∃ frame, task = .dispatch frame (.callFlow id key .reboot) := by
  cases task with
  | dispatch frame step =>
      cases step with
      | callFlow other target callType => cases callType <;> simp [reboot?]
      | _ => simp [reboot?]
  | _ => simp [reboot?]

/-! ## Inputs that nobody waits for -/

/-- A round of a turn in which no frame waits does the same with every input. -/
theorem round_hearing (hquiet : turn.session.levels.Quiet) (input : Option String) :
    (∀ next, turn.round engine = .onward next →
      (turn.hearing input).round engine = .onward (next.hearing input)) ∧
    ∀ final, turn.round engine = .ended final →
      (turn.hearing input).round engine = .ended (final.hearing input) := by
  have hstep := step_hearing engine turn (fun frame hframe =>
    hquiet frame (Levels.mem_frames.2 (.inl (List.mem_of_head? hframe)))) input
  have hconcluded : ∀ idle : Turn,
      (idle.hearing input).concluded engine = (idle.concluded engine).hearing input := by
    intro idle
    unfold concluded
    have hsession : (idle.hearing input).session = idle.session := rfl
    rw [hsession]
    split
    · rfl
    · rfl
  constructor
  · intro next hround
    rcases round_onward hround with hrunning | ⟨failed, error, hfailed, hbudget, rfl⟩
    · unfold round
      rw [hstep, hrunning]
    · unfold round
      rw [hstep, hfailed]
      simp only [hbudget, Bool.false_eq_true, if_false]
      rfl
  · intro final hround
    rcases round_ended hround with hblocked | ⟨idle, hdone, rfl⟩ | ⟨failed, error, hfailed, hbudget, rfl⟩
    · unfold round
      rw [hstep, hblocked]
    · unfold round
      rw [hstep, hdone]
      simp only [hconcluded]
    · unfold round
      rw [hstep, hfailed]
      simp only [hbudget, if_true]
      rfl

theorem Runs.hearing {trail : List Turn} {final : Turn} (hrun : Runs engine turn trail final)
    (horder : turn.session.InOrder) (hquiet : turn.session.levels.Quiet) (input : Option String) :
    ∃ others, Runs engine (turn.hearing input) others (final.hearing input) := by
  induction hrun with
  | last hended => exact ⟨_, .last ((round_hearing hquiet input).2 _ hended)⟩
  | more honward hrest ih =>
      obtain ⟨others, hothers⟩ := ih (round_inOrder horder honward)
        (round_quiet horder hquiet.asksOnTop honward)
      exact ⟨_, .more ((round_hearing hquiet input).1 _ honward) hothers⟩

/-- A turn in which no frame waits has the same response with every input and leaves the same
session. -/
theorem run_hearing (horder : turn.session.InOrder) (hquiet : turn.session.levels.Quiet)
    (input : Option String) :
    (turn.hearing input).run engine =
      ((turn.run engine).1.hearing input, (turn.run engine).2) := by
  obtain ⟨others, hothers⟩ := (runs_drive engine turn).hearing horder hquiet input
  have hdrive : (turn.hearing input).drive engine = (turn.drive engine).hearing input :=
    (runs_iff.1 hothers).2.symm
  unfold run
  rw [hdrive]
  rfl

/-- Every round of a run leads to the end of the run. -/
theorem Runs.drive_eq {opened final : Turn} {trail : List Turn}
    (hrun : Runs engine opened trail final) (hturn : turn ∈ trail) : turn.drive engine = final := by
  induction hrun with
  | last hended =>
      obtain rfl := List.mem_singleton.1 hturn
      exact (runs_iff.1 (.last hended)).2.symm
  | more honward hrest ih =>
      rcases List.mem_cons.1 hturn with rfl | hlater
      · exact (runs_iff.1 (.more honward hrest)).2.symm
      · exact ih hlater

/-- A round that goes on leads to the same end as the turn it goes on with. -/
theorem drive_of_onward {next : Turn} (h : turn.round engine = .onward next) :
    turn.drive engine = next.drive engine :=
  (runs_iff.1 (.more h (runs_drive engine next))).2.symm

/-! ## The round that reboots -/

/-- Two turns agree on what a reboot keeps. -/
structure AgreeOnKept (a b : Turn) : Prop where
  id : b.session.id = a.session.id
  userId : b.session.userId = a.session.userId
  globals : b.session.globals = a.session.globals
  outbox : b.session.outbox = a.session.outbox
  taken : b.taken = a.taken

/-- A turn has one level with one frame, which starts a flow with its own variables over the given
globals. -/
def StartsAnew (turn : Turn) (flow : Definition) (userId : String) (globals : Fields) : Prop :=
  ∃ scope, turn.session.levels =
      ⟨[.start flow scope (.start flow.name "reboot" userId)], []⟩ ∧
    turn.session.scopes.get? scope = some (Table.overlay flow.vars globals)

/-- The turn without levels, with the given scopes. -/
def cleared (turn : Turn) (scopes : Scopes) : Turn :=
  turn.withSession { turn.session with levels := .empty, scopes := scopes }

/-- The turn that a reboot goes on with: without levels, with one more step taken, and then with the
flow. -/
theorem round_of_reboot (horder : turn.session.InOrder) {frame : Frame} {id key : String}
    {flow : Definition}
    (htask : turn.task engine = .dispatch frame (.callFlow id key .reboot))
    (hflow : engine.library.get? key = some flow) :
    ∃ scopes, turn.round engine =
      .onward ((turn.charged.cleared scopes).activate flow "reboot") := by
  obtain ⟨htop, -, -⟩ := task_eq_dispatch.1 htask
  obtain ⟨vars, hvars⟩ := horder.exists_vars htop
  refine ⟨turn.session.scopes.put frame.scope vars, ?_⟩
  have hcharged : turn.charged.session.scopes.get? frame.scope = some vars := hvars
  have hstep : turn.step engine = turn.charged.settle
      ⟨turn.charged.scene frame vars, .ok (.restart (some flow))⟩ := by
    simp only [step_eq_carried, htask, carried, runStep, hcharged, perform, Stage.callFlow]
    have hfound : (turn.charged.stage engine).engine.library.get? key = some flow := hflow
    rw [hfound]
    rfl
  unfold round
  rw [hstep]
  simp only [settle, advance, adopt, scene, List.append_nil]
  rfl

theorem startsAnew_activate (turn : Turn) (scopes : Scopes) (flow : Definition) :
    ((turn.cleared scopes).activate flow "reboot").StartsAnew flow turn.session.userId
      turn.session.globals :=
  ⟨scopes.nextId, rfl, Scopes.get?_put_self _ _ _⟩

/-- Without their levels, turns that agree on what a reboot keeps are the same but for the input. -/
theorem AgreeOnKept.cleared (h : a.AgreeOnKept b) (hpast : engine.AnswersAlike a.journal b.journal)
    (scopes others : Scopes) :
    (a.cleared scopes).Mirrors engine (fun id => id) ((b.cleared others).hearing a.input) := by
  obtain ⟨hid, huser, hglobals, houtbox, htaken⟩ := h
  have hmirrors : (a.cleared scopes).Mirrors engine (fun id => id)
      { a.cleared scopes with
        session :=
          { (a.cleared scopes).session with
            levels := .empty
            scopes := others
            lastEntry := b.session.lastEntry
            history := b.session.history }
        journal := b.journal } :=
    .intro _ _ (.intro others _ _ (.empty _ scopes others)) hpast
  simp only [Turn.cleared, withSession, hearing] at hmirrors ⊢
  rw [hid, huser, hglobals, houtbox, htaken]
  exact hmirrors

/-- If two turns agree on what a reboot keeps, then after it they are the same but for the input. -/
theorem AgreeOnKept.reboot (h : a.AgreeOnKept b) (hpast : engine.AnswersAlike a.journal b.journal)
    (ha : a.session.InOrder) (hb : b.session.InOrder) {frame other : Frame} {id key : String}
    {flow : Definition} (htask : a.task engine = .dispatch frame (.callFlow id key .reboot))
    (htask' : b.task engine = .dispatch other (.callFlow id key .reboot))
    (hflow : engine.library.get? key = some flow) :
    ∃ left right, a.round engine = .onward left ∧ b.round engine = .onward right ∧
      left.StartsAnew flow a.session.userId a.session.globals ∧
      right.StartsAnew flow a.session.userId a.session.globals ∧
      left.Resembles engine (right.hearing left.input) := by
  obtain ⟨scopes, hround⟩ := round_of_reboot ha htask hflow
  obtain ⟨others, hround'⟩ := round_of_reboot hb htask' hflow
  have hcharged : a.charged.AgreeOnKept b.charged :=
    ⟨h.id, h.userId, h.globals, h.outbox, congrArg (· + 1) h.taken⟩
  have hcleared := hcharged.cleared hpast scopes others
  refine ⟨_, _, hround, hround', startsAnew_activate a.charged scopes flow, ?_,
    hcleared.activate flow "reboot"⟩
  have hstarts := startsAnew_activate b.charged others flow
  have huser : b.charged.session.userId = a.session.userId := h.userId
  have hglobals : b.charged.session.globals = a.session.globals := h.globals
  rwa [huser, hglobals] at hstarts

/-- After a reboot no frame waits for an answer. -/
theorem StartsAnew.quiet {flow : Definition} {userId : String} {globals : Fields}
    (h : turn.StartsAnew flow userId globals) : turn.session.levels.Quiet := by
  obtain ⟨scope, hlevels, -⟩ := h
  rw [hlevels]
  intro frame hframe
  obtain rfl := List.mem_singleton.1 hframe
  rfl

end Turn

namespace Engine

variable {engine : Engine} {s t : Session} {x y : Exchange} {a b : Turn}

/-- An exchange ends as the turn of any of its rounds does. -/
theorem update_of_trail (hs : engine.Reachable s) (hturn : a ∈ engine.trail s x) :
    engine.update x.journal s x.entry =
      ((a.run engine).1.journal, .ok ((a.run engine).2, (a.run engine).1.session)) := by
  obtain ⟨opened, hrole, hopening, htrail⟩ := running_of_trail hturn
  rw [htrail] at hturn
  have hdrive : a.drive engine = opened.drive engine :=
    (Turn.runs_drive engine opened).drive_eq hturn
  have hrun : a.run engine = opened.run engine := by
    unfold Turn.run
    rw [hdrive]
  rw [update_of_user hs.inOrder hrole hopening, hrun]
  rfl

theorem next_of_trail (hs : engine.Reachable s) (hturn : a ∈ engine.trail s x) :
    engine.next s x = (a.run engine).1.session := by
  unfold next
  rw [update_of_trail hs hturn]

/-- A reboot forgets everything but what it keeps.  Take two turns, in the midst of two conversations,
that are about to reboot into the same flow and agree on the ids, the globals, the messages and the
steps taken.  Both go on with one level with one frame of that flow, whose variables are those of the
flow over the globals.  From then on, as long as the same entries come and the outside answers
alike, the two conversations have the same responses and their sessions resemble each other. -/
theorem reboot_forgets (hs : engine.Reachable s) (ht : engine.Reachable t)
    (ha : a ∈ engine.trail s x) (hb : b ∈ engine.trail t y) {frame other : Frame}
    {id key : String} {flow : Definition}
    (htask : a.task engine = .dispatch frame (.callFlow id key .reboot))
    (htask' : b.task engine = .dispatch other (.callFlow id key .reboot))
    (hflow : engine.library.get? key = some flow) (hkept : a.AgreeOnKept b)
    (hpast : engine.AnswersAlike a.journal b.journal) :
    (∃ left right, a.round engine = .onward left ∧ b.round engine = .onward right ∧
      left.StartsAnew flow a.session.userId a.session.globals ∧
      right.StartsAnew flow a.session.userId a.session.globals ∧
      left.Resembles engine (right.hearing left.input)) ∧
    ResemblingUpdate engine (engine.update x.journal s x.entry)
      (engine.update y.journal t y.entry) ∧
    ∀ xs ys, List.Forall₂ engine.SameExchange xs ys →
      (engine.after (engine.next s x) xs).Resembles (engine.after (engine.next t y) ys) ∧
      ∀ x' y', engine.SameExchange x' y' →
        ResemblingUpdate engine
          (engine.update x'.journal (engine.after (engine.next s x) xs) x'.entry)
          (engine.update y'.journal (engine.after (engine.next t y) ys) y'.entry) := by
  have horder := trail_inOrder hs.inOrder x ha
  have horder' := trail_inOrder ht.inOrder y hb
  have hreboot := hkept.reboot hpast horder horder' htask htask' hflow
  obtain ⟨left, right, hleft, hright, hstarts, hstarts', hresembles⟩ := hreboot
  have hrun : a.run engine = left.run engine := by
    unfold Turn.run
    rw [Turn.drive_of_onward hleft]
  have hrun' : b.run engine = right.run engine := by
    unfold Turn.run
    rw [Turn.drive_of_onward hright]
  have hend := hresembles.run (Turn.round_inOrder horder hleft)
  rw [Turn.run_hearing (Turn.round_inOrder horder' hright) hstarts'.quiet] at hend
  obtain ⟨⟨rename, hsame⟩, hresponse⟩ := hend
  have hsession : (left.run engine).1.session.Mirrors rename (right.run engine).1.session :=
    hsame.session
  have hjournal : engine.AnswersAlike (left.run engine).1.journal (right.run engine).1.journal :=
    hsame.journal
  have hfirst : ResemblingUpdate engine (engine.update x.journal s x.entry)
      (engine.update y.journal t y.entry) := by
    rw [update_of_trail hs ha, update_of_trail ht hb, hrun, hrun']
    simp only at hresponse
    rw [hresponse]
    exact .taken _ hjournal ⟨rename, hsession⟩
  have hnext : (engine.next s x).Resembles (engine.next t y) := by
    rw [next_of_trail hs ha, next_of_trail ht hb, hrun, hrun']
    exact ⟨rename, hsession⟩
  refine ⟨⟨left, right, hleft, hright, hstarts, hstarts', hresembles⟩, hfirst, ?_⟩
  intro xs ys hentries
  have hafter := after_resembles (hs.next x) (ht.next y) hnext hentries
  refine ⟨hafter, fun x' y' hentry => ?_⟩
  exact update_resembles ((hs.next x).after xs).inOrder ((ht.next y).after ys).inOrder hafter hentry

end Engine

namespace Kiosk

/-- A flow that starts the first one anew. -/
def afresh : Definition where
  id := ""
  name := "Afresh"
  description := ""
  version := ""
  steps := [.callFlow "again" "Order" .reboot]
  vars := []
  metadata := .empty

/-- The same engine with this flow in addition. -/
def forgetful : Engine :=
  { engine with library := stocked (engine.library.flows ++ [afresh]) }

/-- The session of a guest who has said some things to this engine. -/
def forgetfulAfter (texts : List String) : Session :=
  forgetful.after (forgetful.startSession "guest" "kiosk") (texts.map guest)

/-- The turn is about to start the first flow anew and has nothing that a reboot would keep. -/
def isFresh (turn : Turn) : Bool :=
  (turn.task forgetful).reboot? = some ("again", "Order") && turn.session.id = "kiosk" &&
    turn.session.userId = "guest" && turn.session.globals.isEmpty &&
    turn.session.outbox.isEmpty && turn.taken = 0

/-- One guest asks for a fresh start at once, another one in the midst of two flows: from then on
they cannot be told apart. -/
theorem afresh_forgets :
    ∃ first ∈ forgetful.trail (forgetfulAfter []) (guest "Afresh"),
      ∃ second ∈ forgetful.trail (forgetfulAfter ["Order", "Weather"]) (guest "Afresh"),
      first.session.levels.count < second.session.levels.count ∧
      ∀ texts : List String,
        (forgetful.after (forgetful.next (forgetfulAfter []) (guest "Afresh"))
          (texts.map guest)).Resembles
        (forgetful.after (forgetful.next (forgetfulAfter ["Order", "Weather"]) (guest "Afresh"))
          (texts.map guest)) := by
  have hfirst : ((forgetful.trail (forgetfulAfter []) (guest "Afresh")).any fun turn =>
      isFresh turn && turn.session.levels.count = 1) = true := by decide +kernel
  have hsecond : ((forgetful.trail (forgetfulAfter ["Order", "Weather"]) (guest "Afresh")).any
      fun turn => isFresh turn && turn.session.levels.count = 3) = true := by decide +kernel
  obtain ⟨first, hmem, hready⟩ := List.any_eq_true.1 hfirst
  obtain ⟨second, hmem', hready'⟩ := List.any_eq_true.1 hsecond
  simp only [isFresh, Bool.and_eq_true, decide_eq_true_eq, List.isEmpty_iff] at hready hready'
  obtain ⟨⟨⟨⟨⟨⟨htask, hid⟩, huser⟩, hglobals⟩, houtbox⟩, htaken⟩, hcount⟩ := hready
  obtain ⟨⟨⟨⟨⟨⟨htask', hid'⟩, huser'⟩, hglobals'⟩, houtbox'⟩, htaken'⟩, hcount'⟩ := hready'
  obtain ⟨frame, hdispatched⟩ := Turn.Task.reboot?_eq_some.1 htask
  obtain ⟨other, hdispatched'⟩ := Turn.Task.reboot?_eq_some.1 htask'
  have hkept : first.AgreeOnKept second :=
    ⟨hid'.trans hid.symm, huser'.trans huser.symm, hglobals'.trans hglobals.symm,
      houtbox'.trans houtbox.symm, htaken'.trans htaken.symm⟩
  -- the model takes every input for the name of a flow, whatever it has been asked before
  have halike : ∀ journal past, forgetful.AnswersAlike journal past := fun _ _ =>
    ⟨fun _ => rfl, fun _ => rfl, fun _ => rfl⟩
  have hstart : forgetful.Reachable (forgetful.startSession "guest" "kiosk") := .start _ _
  obtain ⟨-, -, hlater⟩ := Engine.reboot_forgets (hstart.after _) (hstart.after _) hmem hmem'
    hdispatched hdispatched' rfl hkept (halike _ _)
  refine ⟨first, hmem, second, hmem', by omega, fun texts => (hlater _ _ ?_).1⟩
  rw [List.forall₂_same]
  exact fun exchange _ => ⟨rfl, halike _ _⟩

end Kiosk

end Parley
