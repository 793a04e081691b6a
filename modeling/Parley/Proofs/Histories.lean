import Parley.Proofs.Positions

/-!
# Histories

The history of a conversation is told in beats: the levels before and after, and
the step that was dispatched, if one was.  A frame is known by its place, the number
of frames beneath it.  As long as its place stays occupied it is the same frame, and
the position in its flow moves on by at most one with each step that is dispatched
for it.
-/

set_option autoImplicit false

namespace Parley

/-- The agenda stands at a position of the flow that has its name. -/
def Agenda.At (library : Library) (agenda : Agenda) (position : Nat) : Prop :=
  ∃ flow, library.get? agenda.flow = some flow ∧ flow.Position position agenda.steps

/-- The frame with so many others beneath it stands at a position of its flow. -/
def Levels.At (library : Library) (levels : Levels) (place position : Nat) : Prop :=
  ∃ agenda, levels.agendas.reverse[place]? = some agenda ∧ agenda.At library position

section Agendas

variable {library : Library} {agenda : Agenda} {i j : Nat}

theorem Agenda.At.unique (hi : agenda.At library i) (hj : agenda.At library j) : i = j := by
  obtain ⟨flow, hflow, hi⟩ := hi
  obtain ⟨other, hother, hj⟩ := hj
  rw [hflow] at hother
  cases hother
  exact hi.unique hj

theorem Levels.At.unique {levels : Levels} {place : Nat} (hi : levels.At library place i)
    (hj : levels.At library place j) : i = j := by
  obtain ⟨agenda, hagenda, hi⟩ := hi
  obtain ⟨other, hother, hj⟩ := hj
  rw [hagenda] at hother
  cases hother
  exact hi.unique hj

/-- A flow that has just been started is found by its name and stands at its beginning. -/
theorem Definition.agenda_at (hlibrary : library.Built) {key : String} {flow : Definition}
    (hflow : library.get? key = some flow) : flow.agenda.At library 0 := by
  have hmem : flow ∈ library.flows := Library.mem_of_get? hflow
  exact ⟨flow, hlibrary.get?_of_mem hmem (Library.name_mem_keys flow), .start flow⟩

theorem Agenda.At.advance {name : String} {step : Step} {later : List Step}
    (h : Agenda.At library ⟨name, step :: later⟩ i) {pushed : Option Step}
    (hpushed : ∀ next ∈ pushed, step.Yields next) :
    ∃ j, Agenda.At library ⟨name, pushed.toList ++ later⟩ j ∧ i ≤ j ∧ j ≤ i + 1 := by
  obtain ⟨flow, hflow, hposition⟩ := h
  obtain ⟨j, hnext, hle, hsucc⟩ := hposition.advance hpushed
  exact ⟨j, ⟨flow, hflow, hnext⟩, hle, hsucc⟩

/-- Every agenda stands at some position. -/
theorem Agenda.at_kept (hlibrary : library.Built) :
    Agenda.Kept library fun agenda => ∃ position, agenda.At library position := by
  constructor
  · intro key flow hflow
    exact ⟨0, Definition.agenda_at hlibrary hflow⟩
  · rintro step name later pushed ⟨position, hposition⟩ hpushed
    obtain ⟨next, hnext, -⟩ := hposition.advance hpushed
    exact ⟨next, hnext⟩

end Agendas

/-! ## Places -/

section Places

variable {α : Type} {top a : α} {rest : List α} {place : Nat}

theorem place_lt (h : rest.reverse[place]? = some a) : place < rest.length := by
  simpa using (List.getElem?_eq_some_iff.1 h).1

/-- An item of a list stands on top of the others, or at the same place among these. -/
theorem place_cons (h : (top :: rest).reverse[place]? = some a) :
    rest.reverse[place]? = some a ∨ place = rest.length ∧ a = top := by
  rw [List.reverse_cons] at h
  rcases Nat.lt_trichotomy place rest.length with hlt | heq | hgt
  · rw [List.getElem?_append_left (by simpa using hlt)] at h
    exact .inl h
  · subst heq
    rw [List.getElem?_append_right (by simp)] at h
    exact .inr ⟨rfl, by simpa using h.symm⟩
  · rw [List.getElem?_append_right (by simpa using Nat.le_of_lt hgt)] at h
    have hbeyond : 1 ≤ place - rest.reverse.length := by
      rw [List.length_reverse]
      omega
    rw [List.getElem?_eq_none (by simpa using hbeyond)] at h
    cases h

/-- If two lists differ on top only, so do their items at a place. -/
theorem place_cons_cons {other b : α} (ha : (top :: rest).reverse[place]? = some a)
    (hb : (other :: rest).reverse[place]? = some b) :
    (place < rest.length ∧ a = b) ∨ place = rest.length ∧ a = top ∧ b = other := by
  rcases place_cons ha, place_cons hb with ⟨hbelow | ⟨htop, rfl⟩, hbelow' | ⟨htop', rfl⟩⟩
  · rw [hbelow] at hbelow'
    cases hbelow'
    exact .inl ⟨place_lt hbelow, rfl⟩
  · have hlt := place_lt hbelow
    omega
  · have hlt := place_lt hbelow'
    omega
  · exact .inr ⟨htop, rfl, rfl⟩

/-- What is put on top of a list leaves all places beneath. -/
theorem place_append (gone : List α) (h : rest.reverse[place]? = some a) :
    (gone ++ rest).reverse[place]? = some a := by
  have hlt := (List.getElem?_eq_some_iff.1 h).1
  rw [List.reverse_append, List.getElem?_append_left hlt]
  exact h

end Places

/-- The steps of the frame are the rest of its flow from exactly one position on, with at most one
more on top. -/
def Frame.InPlace (library : Library) (frame : Frame) : Prop :=
  ∃ flow, library.get? frame.flowName = some flow ∧
    ∃ position, flow.Position position frame.steps ∧
      ∀ other, flow.Position other frame.steps → other = position

theorem Frame.inPlace {library : Library} {frame : Frame}
    (h : ∃ position, frame.agenda.At library position) : frame.InPlace library := by
  obtain ⟨position, flow, hflow, hposition⟩ := h
  exact ⟨flow, hflow, position, hposition, fun other hother => hother.unique hposition⟩

theorem Levels.exists_agenda {levels : Levels} {place : Nat} (h : place < levels.frames.length) :
    ∃ agenda, levels.agendas.reverse[place]? = some agenda := by
  have hlt : place < levels.agendas.reverse.length := by simpa [Levels.agendas] using h
  exact ⟨_, List.getElem?_eq_getElem hlt⟩

theorem Levels.exists_at {library : Library} {levels : Levels} {place : Nat}
    (h : place < levels.frames.length)
    (hall : ∀ agenda ∈ levels.agendas, ∃ position, agenda.At library position) :
    ∃ position, levels.At library place position := by
  obtain ⟨agenda, hagenda⟩ := exists_agenda h
  have hmem : agenda ∈ levels.agendas := List.mem_reverse.1 (List.mem_of_getElem? hagenda)
  obtain ⟨position, hposition⟩ := hall agenda hmem
  exact ⟨position, agenda, hagenda, hposition⟩

/-- What a shift does to the agenda at a place that stays occupied. -/
inductive Fate (library : Library) (step? : Option Step) (onTop : Prop) (before : Agenda) :
    Agenda → Prop where
  /-- It is left alone. -/
  | stayed (hkept : onTop → ∀ step ∈ step?, ¬step.Swaps library) :
      Fate library step? onTop before before
  /-- The step was its own, and it advances. -/
  | advanced (step : Step) (name : String) (later : List Step) (pushed : Option Step)
      (hstep : step? = some step) (htop : onTop) (hkept : ¬step.Swaps library)
      (hbefore : before = ⟨name, step :: later⟩) (hpushed : ∀ next ∈ pushed, step.Yields next) :
      Fate library step? onTop before ⟨name, pushed.toList ++ later⟩
  /-- The step was its own, and its frame is handed to another flow. -/
  | swapped (step : Step) (key : String) (flow : Definition) (hstep : step? = some step)
      (htop : onTop) (hswaps : step.Swaps library) (hflow : library.get? key = some flow) :
      Fate library step? onTop before flow.agenda

/-- Unless everything starts anew, an agenda at a place that stays occupied has one of these
fates. -/
theorem Shift.fate {library : Library} {step? : Option Step} {before after : List Agenda}
    (h : Shift library step? before after)
    (hreboot : ∀ id key, step? ≠ some (.callFlow id key .reboot)) {place : Nat} {a b : Agenda}
    (ha : before.reverse[place]? = some a) (hb : after.reverse[place]? = some b) :
    Fate library step? (before.length = place + 1) a b := by
  cases h with
  | dropped step? gone rest hkept =>
      have hsame := place_append gone hb
      rw [ha] at hsame
      cases hsame
      exact .stayed fun _ => hkept
  | started key flow rest hflow =>
      have hsame := place_append [flow.agenda] ha
      rw [List.singleton_append, hb] at hsame
      cases hsame
      exact .stayed (by simp)
  | advanced step name later pushed rest hpushed hkept =>
      rcases place_cons_cons ha hb with ⟨-, rfl⟩ | ⟨htop, rfl, rfl⟩
      · exact .stayed fun _ => by simpa using hkept
      · exact .advanced step name later pushed rfl (by simp [htop]) hkept rfl hpushed
  | entered id key name later flow rest hflow =>
      have hkept : ¬Step.Swaps library (.callFlow id key .call) := by simp [Step.Swaps]
      have hplace := place_lt ha
      rcases place_cons hb with hb | ⟨htop, -⟩
      · -- beneath the called flow the caller goes on
        rcases place_cons_cons ha hb with ⟨-, rfl⟩ | ⟨htop, rfl, rfl⟩
        · exact .stayed fun _ => by simpa using hkept
        · exact .advanced _ name later none rfl (by simp [htop]) hkept rfl (by simp)
      · simp only [List.length_cons] at hplace htop
        omega
  | swapped id key name later flow rest hflow =>
      have hswaps : Step.Swaps library (.callFlow id key .replace) := ⟨id, key, flow, rfl, hflow⟩
      rcases place_cons_cons ha hb with ⟨hbelow, rfl⟩ | ⟨htop, rfl, rfl⟩
      · -- the frame that is handed over is another one
        refine .stayed fun htop => ?_
        simp only [List.length_cons] at htop
        omega
      · exact .swapped _ key flow rfl (by simp [htop]) hswaps hflow
  | rebooted id key before => exact absurd rfl (hreboot id key)

/-! ## Beats -/

/-- A moment of a history: the levels before and after, and the step that was dispatched. -/
structure Beat where
  before : Levels
  dispatched : Option Step
  after : Levels

namespace Beat

/-- A step was dispatched for the frame at the place. -/
def serves (beat : Beat) (place : Nat) : Bool :=
  beat.dispatched.isSome && beat.before.frames.length == place + 1

/-- The frame at the place is still there after the beat. -/
structure Outlasts (beat : Beat) (place : Nat) : Prop where
  before : place < beat.before.frames.length
  after : place < beat.after.frames.length
  noReboot : ∀ id key, beat.dispatched ≠ some (.callFlow id key .reboot)

/-- The frame at the place was handed to another flow. -/
def Swaps (library : Library) (beat : Beat) (place : Nat) : Prop :=
  beat.serves place = true ∧ ∃ step, beat.dispatched = some step ∧ step.Swaps library

/-- A frame that outlasts a beat is handed to another flow and stands at the beginning of that, or
its position stays or moves on by one, and moves only if a step was dispatched for it. -/
theorem advance {library : Library} {beat : Beat} {place position : Nat}
    (hlibrary : library.Built)
    (hshift : Shift library beat.dispatched beat.before.agendas beat.after.agendas)
    (houtlasts : beat.Outlasts place) (h : beat.before.At library place position) :
    (beat.Swaps library place ∧ beat.after.At library place 0) ∨
      ¬beat.Swaps library place ∧ ∃ next, beat.after.At library place next ∧ position ≤ next ∧
        next ≤ position + (if beat.serves place then 1 else 0) := by
  obtain ⟨agenda, hagenda, hposition⟩ := h
  obtain ⟨other, hother⟩ := Levels.exists_agenda houtlasts.after
  have hlength : beat.before.agendas.length = beat.before.frames.length := by
    simp [Levels.agendas]
  have hfate := hshift.fate houtlasts.noReboot hagenda hother
  rw [hlength] at hfate
  cases hfate with
  | stayed hkept =>
      refine .inr ⟨?_, position, ⟨agenda, hother, hposition⟩, Nat.le_refl _, Nat.le_add_right _ _⟩
      rintro ⟨hserves, step, hstep, hswaps⟩
      have htop : beat.before.frames.length = place + 1 := by
        simpa [serves, hstep] using hserves
      exact hkept htop step hstep hswaps
  | advanced step name later pushed hstep htop hkept hbefore hpushed =>
      subst hbefore
      obtain ⟨next, hnext, hle, hsucc⟩ := hposition.advance hpushed
      have hserves : beat.serves place = true := by simp [serves, hstep, htop]
      refine .inr ⟨?_, next, ⟨_, hother, hnext⟩, hle, ?_⟩
      · rintro ⟨-, step', hstep', hswaps⟩
        rw [hstep] at hstep'
        cases hstep'
        exact hkept hswaps
      · rw [hserves]
        exact hsucc
  | swapped step key flow hstep htop hswaps hflow =>
      have hserves : beat.serves place = true := by simp [serves, hstep, htop]
      have hstart := Definition.agenda_at hlibrary hflow
      exact .inl ⟨⟨hserves, step, hstep, hswaps⟩, _, hother, hstart⟩

end Beat

/-- Beats that follow one another, each of which shifts the agendas. -/
inductive Beats (library : Library) : Levels → List Beat → Levels → Prop where
  | nil (levels : Levels) : Beats library levels [] levels
  | cons (beat : Beat) {later : List Beat} {final : Levels}
      (hshift : Shift library beat.dispatched beat.before.agendas beat.after.agendas)
      (hlater : Beats library beat.after later final) :
      Beats library beat.before (beat :: later) final

namespace Beats

variable {library : Library} {first middle last : Levels} {beats others : List Beat}

theorem append (h : Beats library first beats middle) (h' : Beats library middle others last) :
    Beats library first (beats ++ others) last := by
  induction h with
  | nil levels => exact h'
  | cons beat hshift hlater ih => exact .cons beat hshift (ih h')

theorem split (h : Beats library first (beats ++ others) last) :
    ∃ middle, Beats library first beats middle ∧ Beats library middle others last := by
  induction beats generalizing first with
  | nil => exact ⟨first, .nil first, h⟩
  | cons beat later ih =>
      cases h with
      | cons beat hshift hlater =>
          obtain ⟨middle, hlater, hothers⟩ := ih hlater
          exact ⟨middle, .cons beat hshift hlater, hothers⟩

/-- A stretch of beats that follow one another begins and ends with levels of its own. -/
theorem of_stretch (h : Beats library first beats last) (hstretch : others <:+: beats) :
    ∃ before after, Beats library before others after := by
  obtain ⟨earlier, later, rfl⟩ := hstretch
  obtain ⟨after, hstart, -⟩ := h.split
  obtain ⟨before, -, hothers⟩ := hstart.split
  exact ⟨before, after, hothers⟩

theorem eq_of_nil (h : Beats library first [] last) : last = first := by
  cases h
  rfl

theorem head (h : Beats library first beats last) {beat : Beat} (hhead : beats.head? = some beat) :
    first = beat.before := by
  cases h with
  | nil => cases hhead
  | cons beat hshift hlater =>
      cases hhead
      rfl

theorem getLast (h : Beats library first beats last) {beat : Beat}
    (hlast : beats.getLast? = some beat) : last = beat.after := by
  induction h with
  | nil => cases hlast
  | @cons next later final hshift hlater ih =>
      cases later with
      | nil =>
          cases hlast
          exact hlater.eq_of_nil
      | cons other rest =>
          rw [List.getLast?_cons_cons] at hlast
          exact ih hlast

theorem shift_of_mem (h : Beats library first beats last) {beat : Beat} (hmem : beat ∈ beats) :
    Shift library beat.dispatched beat.before.agendas beat.after.agendas := by
  induction h with
  | nil => cases hmem
  | cons other hshift hlater ih =>
      rcases List.mem_cons.1 hmem with rfl | hrest
      · exact hshift
      · exact ih hrest

/-- What is kept by agendas holds before and after every beat. -/
theorem preserves {P : Agenda → Prop} (hkept : Agenda.Kept library P)
    (h : Beats library first beats last) (hfirst : ∀ agenda ∈ first.agendas, P agenda) :
    ∀ beat ∈ beats, (∀ agenda ∈ beat.before.agendas, P agenda) ∧
      ∀ agenda ∈ beat.after.agendas, P agenda := by
  induction h with
  | nil => simp
  | cons other hshift hlater ih =>
      intro beat hmem
      have hafter := hshift.preserves hkept hfirst
      rcases List.mem_cons.1 hmem with rfl | hrest
      · exact ⟨hfirst, hafter⟩
      · exact ih hafter beat hrest

/-- While a frame outlasts all beats and is not handed to another flow, its position does not go
back, and moves on by at most one for each beat in which a step was dispatched for it. -/
theorem advance (hlibrary : library.Built) (h : Beats library first beats last)
    {place position : Nat} (houtlasts : ∀ beat ∈ beats, beat.Outlasts place)
    (hkept : ∀ beat ∈ beats, ¬beat.Swaps library place)
    (hposition : first.At library place position) :
    ∃ next, last.At library place next ∧ position ≤ next ∧
      next ≤ position + beats.countP fun beat => beat.serves place := by
  induction h generalizing position with
  | nil levels => exact ⟨position, hposition, Nat.le_refl _, Nat.le_add_right _ _⟩
  | @cons beat later final hshift hlater ih =>
      have hbeat := Beat.advance hlibrary hshift (houtlasts beat List.mem_cons_self) hposition
      rcases hbeat with ⟨hswaps, -⟩ | ⟨-, middle, hmiddle, hle, hsucc⟩
      · exact absurd hswaps (hkept beat List.mem_cons_self)
      · -- the later beats start from where this one has led
        obtain ⟨next, hnext, hle', hsucc'⟩ :=
          ih (fun other hother => houtlasts other (List.mem_cons_of_mem _ hother))
            (fun other hother => hkept other (List.mem_cons_of_mem _ hother)) hmiddle
        refine ⟨next, hnext, Nat.le_trans hle hle', ?_⟩
        rw [List.countP_cons]
        omega

/-- A frame that outlasts a stretch of beats stands at a position before and after it.  It stands at
the beginning after it has been handed to another flow; if it never is, its position has moved on by
at most the number of steps that were dispatched for it. -/
theorem life (hlibrary : library.Built) (h : Beats library first beats last)
    (hfirst : ∀ agenda ∈ first.agendas, ∃ position, agenda.At library position)
    (hstretch : others <:+: beats) {head final : Beat} (hhead : others.head? = some head)
    (hfinal : others.getLast? = some final) {place : Nat}
    (houtlasts : ∀ beat ∈ others, beat.Outlasts place) :
    ∃ i j, head.before.At library place i ∧ final.after.At library place j ∧
      (final.Swaps library place → j = 0) ∧
      ((∀ beat ∈ others, ¬beat.Swaps library place) →
        i ≤ j ∧ j ≤ i + others.countP fun beat => beat.serves place) := by
  have hbeats := h.preserves (Agenda.at_kept hlibrary) hfirst
  have hmem : head ∈ others := List.mem_of_head? hhead
  have hmem' : final ∈ others := List.mem_of_getLast? hfinal
  obtain ⟨hbefore, -⟩ := hbeats head (hstretch.subset hmem)
  obtain ⟨hbefore', hafter⟩ := hbeats final (hstretch.subset hmem')
  obtain ⟨i, hi⟩ := Levels.exists_at (houtlasts head hmem).before hbefore
  obtain ⟨j, hj⟩ := Levels.exists_at (houtlasts final hmem').after hafter
  refine ⟨i, j, hi, hj, ?_, ?_⟩
  · intro hswaps
    obtain ⟨position, hposition⟩ := Levels.exists_at (houtlasts final hmem').before hbefore'
    have hshift := h.shift_of_mem (hstretch.subset hmem')
    have hbeat := Beat.advance hlibrary hshift (houtlasts final hmem') hposition
    rcases hbeat with ⟨-, hstart⟩ | ⟨hnone, -⟩
    · exact hj.unique hstart
    · exact absurd hswaps hnone
  · intro hstays
    obtain ⟨before, after, hrun⟩ := h.of_stretch hstretch
    obtain rfl := hrun.head hhead
    obtain rfl := hrun.getLast hfinal
    obtain ⟨next, hnext, hle, hsucc⟩ := hrun.advance hlibrary houtlasts hstays hi
    obtain rfl := hj.unique hnext
    exact ⟨hle, hsucc⟩

end Beats

/-! ## The history of a conversation -/

namespace Turn

/-- The beats of rounds that begin with these turns and end with the last one. -/
def beats (engine : Engine) (final : Turn) : List Turn → List Beat
  | [] => []
  | [turn] => [⟨turn.session.levels, (turn.task engine).step?, final.session.levels⟩]
  | turn :: next :: later =>
    ⟨turn.session.levels, (turn.task engine).step?, next.session.levels⟩ ::
      beats engine final (next :: later)

theorem Runs.beats {engine : Engine} {turn final : Turn} {rounds : List Turn}
    (hrun : Runs engine turn rounds final) (horder : turn.session.InOrder) :
    Beats engine.library turn.session.levels (Turn.beats engine final rounds)
      final.session.levels := by
  induction hrun with
  | last hended =>
      have hshift := round_shift horder (.inr hended)
      exact .cons ⟨_, _, _⟩ hshift (.nil _)
  | more honward hrest ih =>
      have hshift := round_shift horder (.inl honward)
      have hlater := ih (round_inOrder horder honward)
      cases hrest with
      | last hended => exact .cons ⟨_, _, _⟩ hshift hlater
      | more hnext hrest => exact .cons ⟨_, _, _⟩ hshift hlater

end Turn

namespace Engine

/-- The beats of an exchange: the beginning of its turn and each round of it, or one beat if no turn
runs. -/
def beats (engine : Engine) (session : Session) (exchange : Exchange) : List Beat :=
  match engine.opening? session exchange with
  | some (.running turn) =>
    ⟨session.levels, none, turn.session.levels⟩ ::
      Turn.beats engine (turn.drive engine) (turn.trail engine)
  | _ => [⟨session.levels, none, (engine.next session exchange).levels⟩]

/-- The beats of several exchanges. -/
def history (engine : Engine) : Session → List Exchange → List Beat
  | _, [] => []
  | session, exchange :: later =>
    engine.beats session exchange ++ engine.history (engine.next session exchange) later

variable {engine : Engine} {session : Session}

theorem opening_of_opening? {exchange : Exchange} {opening : Opening}
    (h : engine.opening? session exchange = some opening) :
    exchange.entry.role = .user ∧
      engine.opening exchange.journal session exchange.entry = opening := by
  unfold opening? at h
  split at h
  · rename_i hrole
    cases h
    exact ⟨hrole.1, rfl⟩
  · cases h

theorem beats_follow (engine : Engine) (horder : session.InOrder) (exchange : Exchange) :
    Beats engine.library session.levels (engine.beats session exchange)
      (engine.next session exchange).levels := by
  by_cases hruns : ∃ turn, engine.opening? session exchange = some (.running turn)
  · obtain ⟨turn, hruns⟩ := hruns
    obtain ⟨hrole, hopening⟩ := opening_of_opening? hruns
    obtain ⟨hnext, -, -⟩ := ran_of_running horder hrole hopening
    have hopened := opening_inOrder engine horder hrole
    rw [hopening] at hopened
    have hrounds := (Turn.runs_drive engine turn).beats hopened
    have hbegin := (opening_begun hrole hopening).shift
    simp only [beats, hruns]
    rw [hnext, (Turn.session_run engine turn).1]
    exact .cons ⟨_, _, _⟩ hbegin hrounds
  · have htouched : session.Touched (engine.next session exchange) := by
      rcases next_cases engine session exchange with htouched | ⟨turn, hrole, hopening, -⟩
      · exact htouched
      · exact absurd ⟨turn, by simp [opening?, hrole, horder.danglingFrame?, hopening]⟩ hruns
    have hsame : Shift engine.library none session.levels.agendas
        (engine.next session exchange).levels.agendas := by
      rw [htouched.agendas]
      exact .refl _ _
    unfold beats
    split
    · rename_i turn hopening
      exact absurd ⟨turn, hopening⟩ hruns
    · exact .cons ⟨_, _, _⟩ hsame (.nil _)

theorem history_concat (engine : Engine) (session : Session) (exchanges : List Exchange)
    (last : Exchange) :
    engine.history session (exchanges ++ [last]) =
      engine.history session exchanges ++ engine.beats (engine.after session exchanges) last := by
  induction exchanges generalizing session with
  | nil => exact List.append_nil _
  | cons exchange later ih =>
      simp only [List.cons_append, history, ih, List.append_assoc]
      rfl

/-- A beat of a history is that of one of the exchanges. -/
theorem exchange_of_beat {exchanges : List Exchange} {beat : Beat}
    (hbeat : beat ∈ engine.history session exchanges) :
    ∃ earlier exchange later, exchanges = earlier ++ exchange :: later ∧
      beat ∈ engine.beats (engine.after session earlier) exchange := by
  induction exchanges generalizing session with
  | nil => cases hbeat
  | cons exchange later ih =>
      rcases List.mem_append.1 hbeat with hfirst | hlater
      · exact ⟨[], exchange, later, rfl, hfirst⟩
      · obtain ⟨earlier, other, rest, rfl, hother⟩ := ih hlater
        exact ⟨exchange :: earlier, other, rest, rfl, hother⟩

theorem history_follows (engine : Engine) (horder : session.InOrder) (exchanges : List Exchange) :
    Beats engine.library session.levels (engine.history session exchanges)
      (engine.after session exchanges).levels := by
  induction exchanges generalizing session with
  | nil => exact .nil _
  | cons exchange later ih =>
      exact (beats_follow engine horder exchange).append (ih (next_inOrder horder exchange))

/-- The steps of every live frame are the rest of its flow from one position on, with at most one
step on top that has taken the place of the one before.  While a frame lives, steps that are
dispatched for others leave its position alone, and each one that is dispatched for itself moves it
on by at most one and never back; only when the frame is handed to another flow does it start from
the beginning. -/
theorem no_step_skipped_or_repeated (hbuilt : engine.Built) (h : engine.Reachable session) :
    (∀ frame ∈ session.levels.frames, frame.InPlace engine.library) ∧
      ∀ exchanges,
        (∀ beat ∈ engine.history session exchanges,
          ∀ frame ∈ beat.before.frames ++ beat.after.frames, frame.InPlace engine.library) ∧
        ∀ stretch, stretch <:+: engine.history session exchanges → ∀ first last,
          stretch.head? = some first → stretch.getLast? = some last → ∀ place,
          (∀ beat ∈ stretch, beat.Outlasts place) →
            ∃ i j, first.before.At engine.library place i ∧ last.after.At engine.library place j ∧
              (last.Swaps engine.library place → j = 0) ∧
              ((∀ beat ∈ stretch, ¬beat.Swaps engine.library place) →
                i ≤ j ∧ j ≤ i + stretch.countP fun beat => beat.serves place) := by
  have hkept := Agenda.at_kept hbuilt.library
  have hsession := h.agendas hkept
  refine ⟨fun frame hframe => Frame.inPlace (hsession _ (Levels.mem_agendas hframe)), ?_⟩
  intro exchanges
  have hhistory := history_follows engine h.inOrder exchanges
  have hbeats := hhistory.preserves hkept hsession
  refine ⟨?_, ?_⟩
  · intro beat hbeat frame hframe
    obtain ⟨hbefore, hafter⟩ := hbeats beat hbeat
    rcases List.mem_append.1 hframe with hmem | hmem
    · exact Frame.inPlace (hbefore _ (Levels.mem_agendas hmem))
    · exact Frame.inPlace (hafter _ (Levels.mem_agendas hmem))
  · intro stretch hstretch first last hfirst hlast place houtlasts
    exact hhistory.life hbuilt.library hsession hstretch hfirst hlast houtlasts

end Engine

namespace Kiosk

theorem desk_built : desk.Built := by
  have hlibrary : desk.library.Built := Library.Built.empty.insertUntil _
  refine ⟨⟨desk.library, [], [seats], desk.catalog, desk.settings, none, desk.globals, false,
    some desk.model, desk.invoker, desk.now⟩, hlibrary, rfl⟩

/-- When a guest sits down inside, the step that calls the tool has taken the place of the one that
branches, and the flow at the bottom is where it was or one step further afterwards. -/
theorem seat_taken_in_order :
    desk.Built ∧ ∃ beat ∈ desk.history (deskAfter ["Table"]) [guest "inside"],
      beat.serves 0 = true ∧ ∃ i j, beat.before.At desk.library 0 i ∧
        beat.after.At desk.library 0 j ∧ i ≤ j ∧ j ≤ i + 1 := by
  have hbeats : ((desk.history (deskAfter ["Table"]) [guest "inside"]).any fun beat =>
      beat.serves 0 && decide (0 < beat.before.frames.length) &&
        decide (0 < beat.after.frames.length) &&
        beat.dispatched.any fun step => step.kind == .callTool) = true := by decide +kernel
  obtain ⟨beat, hmem, hbeat⟩ := List.any_eq_true.1 hbeats
  simp only [Bool.and_eq_true, decide_eq_true_eq] at hbeat
  obtain ⟨⟨⟨hserves, hbefore⟩, hafter⟩, hcalls⟩ := hbeat
  have houtlasts : beat.Outlasts 0 := by
    refine ⟨hbefore, hafter, fun id key hreboot => ?_⟩
    simp [hreboot, Step.kind] at hcalls
  have hstays : ¬beat.Swaps desk.library 0 := by
    rintro ⟨-, step, hstep, id, key, flow, rfl, -⟩
    simp [hstep, Step.kind] at hcalls
  have hstretch : [beat] <:+: desk.history (deskAfter ["Table"]) [guest "inside"] := by
    obtain ⟨earlier, later, hsplit⟩ := List.append_of_mem hmem
    exact ⟨earlier, later, by rw [hsplit]; simp⟩
  obtain ⟨i, j, hi, hj, -, hmoves⟩ :=
    (Engine.no_step_skipped_or_repeated desk_built (reachable_deskAfter ["Table"])).2
      [guest "inside"] |>.2 [beat] hstretch beat beat rfl rfl 0 (by simpa using houtlasts)
  have hmoved := hmoves (by simpa using hstays)
  refine ⟨desk_built, beat, hmem, hserves, i, j, hi, hj, hmoved.1, ?_⟩
  simpa [hserves] using hmoved.2

end Kiosk

end Parley
