import Parley.Proofs.Protection

/-!
# The shape of the levels

A beat builds on the levels in few ways.  A frame comes on top of another one of its
level only by a call that finds room there, and a level comes on top of another one
only by an interruption.  So no level grows beyond the limit, all levels below the
innermost one have frames, and for every frame that stands on another one the history
has the call that brought it there.
-/

set_option autoImplicit false

namespace Parley

namespace Levels

/-- How levels change while a step is dispatched, or while none is.  A level with frames gets a
further one by a call only, and only below the limit. -/
inductive Builds (limit : Nat) (step? : Option Step) : Levels → Levels → Prop where
  /-- Frames are taken from the innermost level, or all stay as they are. -/
  | dropped (gone current : Level) (suspended : List Level)
      (hquiet : ∀ id key, step? ≠ some (.callFlow id key .reboot)) :
      Builds limit step? ⟨gone ++ current, suspended⟩ ⟨current, suspended⟩
  /-- The frame that runs changes. -/
  | kept (frame frame' : Frame) (callers : Level) (suspended : List Level)
      (hquiet : ∀ id key, step? ≠ some (.callFlow id key .reboot)) :
      Builds limit step? ⟨frame :: callers, suspended⟩ ⟨frame' :: callers, suspended⟩
  /-- A called flow comes on top of its caller. -/
  | called (id key : String) (frame frame' top : Frame) (callers : Level) (suspended : List Level)
      (hcall : step? = some (.callFlow id key .call)) (hroom : (frame :: callers).length < limit) :
      Builds limit step? ⟨frame :: callers, suspended⟩ ⟨top :: frame' :: callers, suspended⟩
  /-- A flow is started on a level of its own, above the one that it interrupts. -/
  | interrupted (frame frame' top : Frame) (callers : Level) (suspended : List Level)
      (hnone : step? = none) :
      Builds limit step? ⟨frame :: callers, suspended⟩ ⟨[top], (frame' :: callers) :: suspended⟩
  /-- A flow is started while none is in progress. -/
  | started (top : Frame) (suspended : List Level) (hnone : step? = none) :
      Builds limit step? ⟨[], suspended⟩ ⟨[top], suspended⟩
  /-- The innermost level, which has no frames, is left. -/
  | resumed (frame frame' : Frame) (callers : Level) (below : List Level) (hnone : step? = none) :
      Builds limit step? ⟨[], (frame :: callers) :: below⟩ ⟨frame' :: callers, below⟩
  /-- All frames are dropped, and at most one starts anew. -/
  | rebooted (before : Levels) (tops : Level) (hone : tops.length ≤ 1) :
      Builds limit step? before ⟨tops, []⟩

/-- The levels have the shape that calls and interruptions give them: no level holds more frames than
allowed, where one is always allowed, and those that were interrupted have frames. -/
structure Shaped (limit : Nat) (levels : Levels) : Prop where
  bounded : ∀ level ∈ levels.inward, level.length ≤ max 1 limit
  filled : ∀ level ∈ levels.suspended, level ≠ []

/-- The places at which the given levels begin, each the number of frames on the levels below. -/
def basesOf : List Level → List Nat
  | [] => []
  | _ :: below => below.flatten.length :: basesOf below

/-- There is a frame at the place, and it is not the first one of its level. -/
structure Upper (levels : Levels) (place : Nat) : Prop where
  occupied : place < levels.frames.length
  notBase : place ∉ basesOf levels.inward

@[simp] theorem length_frames_mk (current : Level) (suspended : List Level) :
    (Levels.mk current suspended).frames.length = current.length + suspended.flatten.length := by
  simp [frames, inward]

/-- The frame `upper` stands directly on `lower`, on one level, and has so many frames beneath it. -/
structure StandsOn (levels : Levels) (upper lower : Frame) (place : Nat) : Prop where
  split : ∃ newer tops callers older,
    levels.inward = newer ++ (tops ++ upper :: lower :: callers) :: older ∧
      place = (lower :: callers).length + older.flatten.length

theorem le_of_mem_basesOf {levels : List Level} {base : Nat} (h : base ∈ basesOf levels) :
    base ≤ levels.flatten.length := by
  induction levels with
  | nil => cases h
  | cons level below ih =>
      rw [List.flatten_cons, List.length_append]
      rcases List.mem_cons.1 h with rfl | hbelow
      · exact Nat.le_add_left _ _
      · exact Nat.le_trans (ih hbelow) (Nat.le_add_left _ _)

/-- Newer levels begin above all frames of the older ones. -/
theorem mem_basesOf_append {newer older : List Level} {base : Nat}
    (h : base ∈ basesOf (newer ++ older)) : base ∈ basesOf older ∨ older.flatten.length ≤ base := by
  induction newer with
  | nil => exact .inl h
  | cons level newer ih =>
      rcases List.mem_cons.1 h with rfl | hrest
      · refine .inr ?_
        show older.flatten.length ≤ (newer ++ older).flatten.length
        rw [List.flatten_append, List.length_append]
        exact Nat.le_add_left _ _
      · exact ih hrest

theorem StandsOn.upper {levels : Levels} {upper lower : Frame} {place : Nat}
    (h : levels.StandsOn upper lower place) : levels.Upper place := by
  obtain ⟨newer, tops, callers, older, hinward, rfl⟩ := h.split
  constructor
  · simp only [frames, hinward, List.flatten_append, List.flatten_cons, List.length_append,
      List.length_cons]
    omega
  · rw [hinward]
    intro hbase
    rcases mem_basesOf_append hbase with hlevel | habove
    · rcases List.mem_cons.1 hlevel with heq | holder
      · simp only [List.length_cons] at heq
        omega
      · have hle := le_of_mem_basesOf holder
        simp only [List.length_cons] at hle
        omega
    · simp only [List.flatten_cons, List.length_append, List.length_cons] at habove
      omega

theorem StandsOn.frameAt? {levels : Levels} {upper lower : Frame} {place : Nat}
    (h : levels.StandsOn upper lower (place + 1)) : levels.frameAt? place = some lower := by
  obtain ⟨newer, tops, callers, older, hinward, hplace⟩ := h.split
  have hframes : levels.frames =
      (newer.flatten ++ tops ++ [upper]) ++ lower :: (callers ++ older.flatten) := by
    simp [frames, hinward]
  have hlength : place = (callers ++ older.flatten).length := by
    simp only [List.length_cons, List.length_append] at hplace ⊢
    omega
  rw [Levels.frameAt?, hframes]
  apply place_append
  rw [hlength, List.reverse_cons, ← List.length_reverse]
  exact List.getElem?_concat_length

namespace Builds

variable {limit : Nat} {step? : Option Step} {before after : Levels}

theorem refl (levels : Levels) (hquiet : ∀ id key, step? ≠ some (.callFlow id key .reboot)) :
    Builds limit step? levels levels :=
  .dropped [] levels.current levels.suspended hquiet

/-- The frames of the innermost level are given up. -/
theorem drained (levels : Levels) (hquiet : ∀ id key, step? ≠ some (.callFlow id key .reboot)) :
    Builds limit step? levels ⟨[], levels.suspended⟩ := by
  have h : Builds limit step? ⟨levels.current ++ [], levels.suspended⟩ ⟨[], levels.suspended⟩ :=
    .dropped levels.current [] levels.suspended hquiet
  rwa [List.append_nil] at h

theorem shaped (h : Builds limit step? before after) (hbefore : before.Shaped limit) :
    after.Shaped limit := by
  have hone : 1 ≤ max 1 limit := Nat.le_max_left 1 limit
  obtain ⟨hbounded, hfilled⟩ := hbefore
  cases h with
  | dropped gone current suspended hquiet =>
      obtain ⟨hcurrent, hothers⟩ := List.forall_mem_cons.1 hbounded
      rw [List.length_append] at hcurrent
      exact ⟨List.forall_mem_cons.2 ⟨Nat.le_trans (Nat.le_add_left _ _) hcurrent, hothers⟩, hfilled⟩
  | kept frame frame' callers suspended hquiet =>
      obtain ⟨hcurrent, hothers⟩ := List.forall_mem_cons.1 hbounded
      exact ⟨List.forall_mem_cons.2 ⟨hcurrent, hothers⟩, hfilled⟩
  | called id key frame frame' top callers suspended hcall hroom =>
      obtain ⟨-, hothers⟩ := List.forall_mem_cons.1 hbounded
      refine ⟨List.forall_mem_cons.2 ⟨?_, hothers⟩, hfilled⟩
      exact Nat.le_trans hroom (Nat.le_max_right 1 limit)
  | interrupted frame frame' top callers suspended hnone =>
      obtain ⟨hcurrent, hothers⟩ := List.forall_mem_cons.1 hbounded
      exact ⟨List.forall_mem_cons.2 ⟨hone, List.forall_mem_cons.2 ⟨hcurrent, hothers⟩⟩,
        List.forall_mem_cons.2 ⟨List.cons_ne_nil _ _, hfilled⟩⟩
  | started top suspended hnone =>
      obtain ⟨-, hothers⟩ := List.forall_mem_cons.1 hbounded
      exact ⟨List.forall_mem_cons.2 ⟨hone, hothers⟩, hfilled⟩
  | resumed frame frame' callers below hnone =>
      obtain ⟨-, hothers⟩ := List.forall_mem_cons.1 hbounded
      obtain ⟨hcurrent, hbelow⟩ := List.forall_mem_cons.1 hothers
      exact ⟨List.forall_mem_cons.2 ⟨hcurrent, hbelow⟩, (List.forall_mem_cons.1 hfilled).2⟩
  | rebooted before tops htops =>
      exact ⟨List.forall_mem_cons.2 ⟨Nat.le_trans htops hone, by simp⟩, by simp⟩

/-- At most one level is added, and none is unless the beat opens one. -/
theorem count_le (h : Builds limit step? before after) :
    after.count ≤ before.count + if before.count < after.count then 1 else 0 := by
  have hadded : after.count ≤ before.count + 1 := by
    cases h with
    | rebooted before tops hone => exact Nat.succ_le_succ (Nat.zero_le _)
    | interrupted frame frame' top callers suspended hnone => exact Nat.le_refl _
    | resumed frame frame' callers below hnone =>
        exact Nat.le_trans (Nat.le_succ _) (Nat.le_succ _)
    | _ => exact Nat.le_succ _
  split <;> omega

/-- A frame that stands on another one after the beat stood there before, and nothing started anew,
or the beat is that of the call by which it came. -/
theorem upper (h : Builds limit step? before after) {place : Nat} (hafter : after.Upper place) :
    (before.Upper place ∧ ∀ id key, step? ≠ some (.callFlow id key .reboot)) ∨
      before.frames.length = place ∧ 0 < place ∧ ∃ id key, step? = some (.callFlow id key .call) := by
  obtain ⟨hoccupied, hnotBase⟩ := hafter
  have hquiet : step? = none → ∀ id key, step? ≠ some (.callFlow id key .reboot) := by
    rintro rfl id key ⟨⟩
  cases h with
  | dropped gone current suspended hquiet =>
      refine .inl ⟨⟨?_, hnotBase⟩, hquiet⟩
      simp only [length_frames_mk, List.length_append] at hoccupied ⊢
      omega
  | kept frame frame' callers suspended hquiet => exact .inl ⟨⟨hoccupied, hnotBase⟩, hquiet⟩
  | called id key frame frame' top callers suspended hcall hroom =>
      by_cases hnew : (Levels.mk (frame :: callers) suspended).frames.length = place
      · refine .inr ⟨hnew, ?_, id, key, hcall⟩
        rw [← hnew]
        exact Nat.succ_pos _
      · refine .inl ⟨⟨?_, hnotBase⟩, by simp [hcall]⟩
        simp only [length_frames_mk, List.length_cons] at hoccupied hnew ⊢
        omega
  | interrupted frame frame' top callers suspended hnone =>
      simp only [inward, basesOf, List.mem_cons, not_or, List.flatten_cons, List.length_append,
        List.length_cons] at hnotBase
      refine .inl ⟨⟨?_, ?_⟩, hquiet hnone⟩
      · simp only [length_frames_mk, List.flatten_cons, List.length_append, List.length_cons,
          List.length_nil] at hoccupied ⊢
        omega
      · simpa [inward, basesOf] using hnotBase.2
  | started top suspended hnone =>
      simp only [inward, basesOf, List.mem_cons, not_or] at hnotBase
      refine .inl ⟨⟨?_, ?_⟩, hquiet hnone⟩
      · simp only [length_frames_mk, List.length_cons, List.length_nil] at hoccupied ⊢
        omega
      · simpa [inward, basesOf] using hnotBase
  | resumed frame frame' callers below hnone =>
      refine .inl ⟨⟨?_, ?_⟩, hquiet hnone⟩
      · simpa only [length_frames_mk, List.flatten_cons, List.length_append, List.length_cons,
          List.length_nil, Nat.zero_add] using hoccupied
      · simp only [inward, basesOf, List.mem_cons, not_or, length_frames_mk, List.length_cons,
          List.flatten_cons, List.length_append] at hoccupied hnotBase ⊢
        exact ⟨by omega, hnotBase⟩
  | rebooted before tops htops =>
      -- the only frame that may be there is the first one of its level
      simp only [inward, basesOf, List.mem_singleton, length_frames_mk, List.flatten_nil,
        List.length_nil] at hoccupied hnotBase
      omega

end Builds

end Levels

/-! ## Rounds -/

namespace Turn

variable {engine : Engine} {turn : Turn}

/-- A step that reboots ends all flows. -/
theorem step_of_reboots (horder : turn.session.InOrder) (hreboots : turn.Reboots engine) :
    ∃ scene flow, turn.step engine = turn.charged.settle ⟨scene, .ok (.restart flow)⟩ := by
  obtain ⟨id, key, hreboot⟩ := hreboots
  obtain ⟨frame, htask⟩ := Task.step?_eq_some.1 hreboot
  obtain ⟨htop, hbudget, rest, hsteps⟩ := task_eq_dispatch.1 htask
  obtain ⟨callers, suspended, hlevels⟩ := Levels.top?_eq_some.1 htop
  obtain ⟨vars, hvars⟩ := horder.exists_vars htop
  have hstep := step_of_next hlevels hvars hbudget hsteps
  obtain ⟨scene, flow, hperform⟩ : ∃ scene flow, perform (turn.charged.stage engine)
      (.callFlow id key .reboot) (turn.charged.scene frame vars) = ⟨scene, .ok (.restart flow)⟩ := by
    simp only [perform, Stage.callFlow]
    split
    · exact ⟨_, _, rfl⟩
    · rename_i hcall
      cases hcall
    · rename_i hcall
      cases hcall
    · exact ⟨_, _, rfl⟩
  exact ⟨scene, flow, by rw [hstep, hperform]⟩

/-- The levels after a round that reboots are those that its step has left. -/
theorem levels_of_restart {scene : Scene} {flow : Option Definition}
    (hstep : turn.step engine = turn.charged.settle ⟨scene, .ok (.restart flow)⟩) :
    (turn.round engine).turn.session.levels =
      (turn.charged.settle ⟨scene, .ok (.restart flow)⟩).1.session.levels := by
  have hdone : (turn.step engine).2 = .ok .running := by
    rw [hstep]
    cases flow <;> rfl
  rw [(round_of_ok hdone).1, hstep]

/-- A round that reboots leaves at most one frame. -/
theorem levels_of_reboots (horder : turn.session.InOrder) (hreboots : turn.Reboots engine) :
    ∃ tops : Level, (turn.round engine).turn.session.levels = ⟨tops, []⟩ ∧ tops.length ≤ 1 := by
  obtain ⟨scene, flow, hstep⟩ := step_of_reboots horder hreboots
  rw [levels_of_restart hstep]
  rcases settle_restart turn.charged scene flow with ⟨hempty, -⟩ | ⟨f, -, hstarted, -⟩
  · exact ⟨[], hempty, Nat.zero_le 1⟩
  · exact ⟨[f], hstarted, Nat.le_refl 1⟩

theorem settle_builds {step : Step} {frame : Frame} {callers : Level} {suspended : List Level}
    {vars : Fields} {outcome : Outcome}
    (hlevels : turn.session.levels = ⟨frame :: callers, suspended⟩)
    (hquiet : ∀ id key, step ≠ .callFlow id key .reboot)
    (heffect : Effect (turn.stage engine) step (turn.scene frame vars) outcome) :
    Levels.Builds engine.settings.maxStackDepth (some step) turn.session.levels
        (turn.settle outcome).1.session.levels ∧
      (turn.settle outcome).1.session.levels.suspended = suspended := by
  have hstays : ∀ id key, some step ≠ some (.callFlow id key .reboot) :=
    fun id key heq => hquiet id key (Option.some.inj heq)
  have hnext : ∀ flow, outcome.next ≠ .ok (.restart flow) := by
    intro flow hrestart
    obtain ⟨id, key, hstep⟩ := heffect.restart hrestart
    exact hquiet id key hstep
  have hafter := levels_settle hlevels outcome hnext
  rw [hafter, hlevels]
  refine ⟨?_, rfl⟩
  cases heffect with
  | gaveUp after => exact .dropped [frame] callers suspended hstays
  | entered after flow initiator hkind hroom hframe hsteps hpending hinput htarget =>
      obtain ⟨id, key, rfl, -⟩ := htarget
      have hdepth : turn.session.levels.depth = (frame :: callers).length :=
        congrArg (fun levels : Levels => levels.current.length) hlevels
      exact .called id key frame _ _ callers suspended rfl (hdepth ▸ hroom)
  | rebooted after id key flow hstep => exact absurd hstep (hquiet id key)
  | _ => exact .kept frame _ callers suspended hstays

/-- A step that is no reboot builds on the levels, and if it cannot be finished it leaves the levels
below as they are. -/
theorem step_builds (horder : turn.session.InOrder) (hquiet : ¬turn.Reboots engine) :
    Levels.Builds engine.settings.maxStackDepth (turn.task engine).step? turn.session.levels
        (turn.step engine).1.session.levels ∧
      ∀ error, (turn.step engine).2 = .error error →
        (turn.step engine).1.session.levels.suspended = turn.session.levels.suspended := by
  have hstays : ∀ id key, (turn.task engine).step? ≠ some (.callFlow id key .reboot) :=
    fun id key h => hquiet ⟨id, key, h⟩
  have hmove := step_move engine horder
  generalize turn.step engine = result at hmove ⊢
  cases hmove with
  | idled hlevels => exact ⟨.refl _ hstays, fun _ herror => by cases herror⟩
  | resumed frame callers below hlevels =>
      have hnone : (turn.task engine).step? = none := by
        simp [task, hlevels, Levels.top?, Task.step?]
      refine ⟨?_, fun _ herror => by cases herror⟩
      rw [hlevels]
      exact .resumed frame _ callers below hnone
  | exhausted frame callers suspended hlevels hlimit => exact ⟨.refl _ hstays, fun _ _ => rfl⟩
  | finished frame callers suspended hlevels hlimit hsteps =>
      refine ⟨?_, fun _ herror => by cases herror⟩
      rw [hlevels]
      exact .dropped [frame] callers suspended hstays
  | performed frame callers suspended step rest vars outcome hlevels hlimit hsteps hvars heffect =>
      have htask : turn.task engine = .dispatch frame step :=
        task_eq_dispatch.2 ⟨by simp [hlevels, Levels.top?], hlimit, rest, hsteps⟩
      have hcharged : turn.charged.session.levels = ⟨frame :: callers, suspended⟩ := hlevels
      rw [htask] at hstays ⊢
      obtain ⟨hbuilds, hbelow⟩ := settle_builds hcharged
        (fun id key heq => hstays id key (congrArg some heq)) heffect
      exact ⟨hbuilds, fun _ _ => hbelow.trans (congrArg Levels.suspended hlevels).symm⟩

theorem round_builds (horder : turn.session.InOrder) :
    Levels.Builds engine.settings.maxStackDepth (turn.task engine).step? turn.session.levels
      (turn.round engine).turn.session.levels := by
  by_cases hreboots : turn.Reboots engine
  · obtain ⟨tops, htops, hone⟩ := levels_of_reboots horder hreboots
    rw [htops]
    exact .rebooted _ tops hone
  · obtain ⟨hbuilds, hbelow⟩ := step_builds horder hreboots
    cases hstep : (turn.step engine).2 with
    | ok progress => rwa [(round_of_ok hstep).1]
    | error error =>
        have hdrained : Levels.Builds engine.settings.maxStackDepth (turn.task engine).step?
            turn.session.levels ⟨[], turn.session.levels.suspended⟩ :=
          .drained _ fun id key h => hreboots ⟨id, key, h⟩
        rw [round_of_error hstep]
        rwa [← hbelow error hstep] at hdrained

end Turn

/-! ## Histories -/

/-- The beginning of a turn builds on the levels, too. -/
theorem Begun.builds {library : Library} {before after : Levels} (h : Begun library before after)
    (limit : Nat) : Levels.Builds limit none before after := by
  cases h with
  | kept frame frame' callers suspended hbefore =>
      rw [hbefore]
      exact .kept frame frame' callers suspended nofun
  | cancelled frame callers suspended hbefore =>
      rw [hbefore]
      exact .drained _ nofun
  | interrupted frame frame' callers suspended key flow scope transaction hbefore =>
      rw [hbefore]
      exact .interrupted frame _ _ callers suspended rfl
  | welcomed suspended key flow scope transaction hbefore =>
      rw [hbefore]
      exact .started _ suspended rfl

theorem Session.Touched.builds {before after : Session} (h : before.Touched after) (limit : Nat) :
    Levels.Builds limit none before.levels after.levels := by
  rcases hlevels : before.levels with ⟨current, suspended⟩
  cases current with
  | nil =>
      rw [h.levels_eq_of_nil hlevels]
      exact .refl _ nofun
  | cons frame callers =>
      obtain ⟨frame', -, hafter⟩ := h.levels_eq hlevels
      rw [hafter]
      exact .kept frame frame' callers suspended nofun

namespace Engine

variable {engine : Engine} {session : Session}

theorem beats_build (horder : session.InOrder) (exchange : Exchange) :
    ∀ beat ∈ engine.beats session exchange,
      Levels.Builds engine.settings.maxStackDepth beat.dispatched beat.before beat.after := by
  intro beat hbeat
  rcases cases_of_beat horder hbeat with
    ⟨turn, hrole, hopening, rfl⟩ | ⟨turn, -, hordered, rfl⟩ | ⟨htouched, rfl⟩
  · exact (opening_begun hrole hopening).builds _
  · exact Turn.round_builds hordered
  · exact htouched.builds _

theorem history_builds (horder : session.InOrder) (exchanges : List Exchange) :
    ∀ beat ∈ engine.history session exchanges,
      Levels.Builds engine.settings.maxStackDepth beat.dispatched beat.before beat.after := by
  intro beat hbeat
  obtain ⟨earlier, exchange, later, -, hexchange⟩ := exchange_of_beat hbeat
  exact beats_build (after_inOrder horder earlier) exchange beat hexchange

end Engine

namespace Beats

variable {library : Library} {limit : Nat} {first last : Levels} {beats : List Beat}

/-- The shape of the levels lasts. -/
theorem shaped (h : Beats library first beats last)
    (hbuilds : ∀ beat ∈ beats, Levels.Builds limit beat.dispatched beat.before beat.after)
    (hfirst : first.Shaped limit) :
    last.Shaped limit ∧ ∀ beat ∈ beats, beat.before.Shaped limit ∧ beat.after.Shaped limit := by
  induction h with
  | nil levels => exact ⟨hfirst, nofun⟩
  | cons beat hshift hlater ih =>
      obtain ⟨hbeat, hothers⟩ := List.forall_mem_cons.1 hbuilds
      have hafter := hbeat.shaped hfirst
      obtain ⟨hlast, hall⟩ := ih hothers hafter
      exact ⟨hlast, List.forall_mem_cons.2 ⟨⟨hfirst, hafter⟩, hall⟩⟩

/-- A frame that stands on another one at the end has stood there from the beginning, or was brought
there by a call and has stood there since. -/
theorem upper (h : Beats library first beats last)
    (hbuilds : ∀ beat ∈ beats, Levels.Builds limit beat.dispatched beat.before beat.after)
    {place : Nat} (hlast : last.Upper place) :
    (first.Upper place ∧ ∀ beat ∈ beats, beat.Outlasts place) ∨
      ∃ call during, call :: during <:+ beats ∧ (∀ beat ∈ during, beat.Outlasts place) ∧
        call.before.frames.length = place ∧ place < call.after.frames.length ∧ 0 < place ∧
        ∃ id key, call.dispatched = some (.callFlow id key .call) := by
  induction h with
  | nil levels => exact .inl ⟨hlast, nofun⟩
  | @cons beat later final hshift hlater ih =>
      obtain ⟨hbeat, hothers⟩ := List.forall_mem_cons.1 hbuilds
      rcases ih hothers hlast with ⟨hafter, houtlasts⟩ | ⟨call, during, hsuffix, hcall⟩
      · rcases hbeat.upper hafter with ⟨hbefore, hquiet⟩ | ⟨hplace, hcall⟩
        · refine .inl ⟨hbefore, List.forall_mem_cons.2 ⟨?_, houtlasts⟩⟩
          exact ⟨hbefore.occupied, hafter.occupied, hquiet⟩
        · exact .inr ⟨beat, later, List.suffix_refl _, houtlasts, hplace, hafter.occupied, hcall⟩
      · exact .inr ⟨call, during, hsuffix.trans (List.suffix_cons beat later), hcall⟩

/-- There are never more levels than at the beginning and those that were opened since. -/
theorem count_le (h : Beats library first beats last)
    (hbuilds : ∀ beat ∈ beats, Levels.Builds limit beat.dispatched beat.before beat.after) :
    ∀ beat ∈ beats, beat.after.count ≤ first.count + beats.countP Beat.opens := by
  induction h with
  | nil levels => exact nofun
  | @cons beat later final hshift hlater ih =>
      obtain ⟨hbeat, hothers⟩ := List.forall_mem_cons.1 hbuilds
      have hadded : beat.after.count ≤ beat.before.count + if beat.opens then 1 else 0 := by
        simpa [Beat.opens] using hbeat.count_le
      have hall := ih hothers
      intro other hother
      rw [List.countP_cons]
      rcases List.mem_cons.1 hother with rfl | hrest
      · omega
      · have hle := hall other hrest
        omega

end Beats

/-! ## Calls and interruptions -/

/-- The beat is that of a call: a flow that the frame that runs has called comes on top of it. -/
structure Beat.Calls (beat : Beat) (id : String) (caller : Frame) : Prop where
  dispatched : ∃ key, beat.dispatched = some (.callFlow id key .call)
  levels : ∃ top callers suspended, beat.before = ⟨caller :: callers, suspended⟩ ∧
    beat.after = ⟨top :: caller.called id :: callers, suspended⟩

/-- A call for which there is no room takes away the frames of the innermost level, and no others. -/
theorem Turn.levels_of_full_call {engine : Engine} {turn : Turn} (horder : turn.session.InOrder)
    {id key : String} {flow : Definition}
    (hcall : (turn.task engine).step? = some (.callFlow id key .call))
    (hflow : engine.library.get? key = some flow)
    (hfull : engine.settings.maxStackDepth ≤ turn.session.levels.depth) :
    (turn.round engine).turn.session.levels = ⟨[], turn.session.levels.suspended⟩ := by
  obtain ⟨frame, htask⟩ := Task.step?_eq_some.1 hcall
  obtain ⟨htop, hbudget, rest, hsteps⟩ := task_eq_dispatch.1 htask
  obtain ⟨callers, suspended, hlevels⟩ := Levels.top?_eq_some.1 htop
  obtain ⟨vars, hvars⟩ := horder.exists_vars htop
  have hfailure := Stage.callFlow_of_full (turn.charged.stage engine)
    (turn.charged.scene frame vars) id hflow hfull
  rw [levels_round_of_failure hlevels hvars hbudget hsteps hfailure, hlevels]

namespace Engine

variable {engine : Engine} {session : Session}

/-- In an exchange at most one level is added, and only by a flow that interrupts another one. -/
theorem levels_opened (horder : session.InOrder) (hothers : session.levels.pop.1.Decided)
    (exchange : Exchange) :
    (engine.beats session exchange).countP Beat.opens ≤ 1 ∧
      ∀ beat ∈ engine.beats session exchange,
        beat.after.count ≤ session.levels.count + 1 ∧
        (beat.opens = true → ∃ (turn : Turn) (target : Definition),
          engine.opening exchange.journal session exchange.entry =
            .running (turn.switchTo target) ∧
          beat = ⟨session.levels, none, (turn.switchTo target).session.levels⟩) := by
  obtain ⟨-, hcount, hopened⟩ := beats_opened horder hothers exchange
  refine ⟨hcount, fun beat hbeat => ⟨?_, fun hopens => ?_⟩⟩
  · have hle := (beats_follow engine horder exchange).count_le (beats_build horder exchange) beat hbeat
    omega
  · obtain ⟨turn, hrole, hopening, rfl⟩ := hopened beat hbeat hopens
    obtain ⟨target, hreaction⟩ :=
      (opens_iff_interrupt engine horder hothers exchange).1 ⟨_, hbeat, hopens⟩
    obtain ⟨-, frame, htop, -⟩ := reaction?_eq_interrupt.1 hreaction
    obtain ⟨callers, suspended, hlevels⟩ := Levels.top?_eq_some.1 htop
    obtain ⟨opened, named, reaction, hsame, hcarried, -⟩ := opening_of_frame engine hrole hlevels
    cases hreaction.symm.trans hsame
    have hswitched : turn = opened.switchTo target := by
      cases hopening.symm.trans hcarried
      rfl
    rw [hopening, hswitched]
    exact ⟨opened, target, rfl, rfl⟩

/-- A frame that stands on another one has been brought there by a call of that one, which has been
left as it was at the call ever since. -/
theorem called_of_standsOn (hfirst : session.InOrder) (hempty : session.levels = .empty)
    (exchanges : List Exchange) {past : List Beat} {beat : Beat}
    (hpast : past ++ [beat] <+: engine.history session exchanges) {upper lower : Frame}
    {place : Nat} (hstands : beat.after.StandsOn upper lower place) :
    ∃ call during id caller, call :: during <:+ past ++ [beat] ∧ call.Calls id caller ∧
      call.before.frames.length = place ∧ (∀ other ∈ during, other.Outlasts place) ∧
      lower = caller.called id := by
  have hhistory := history_follows engine hfirst exchanges
  have hbuilds : ∀ other ∈ past ++ [beat],
      Levels.Builds engine.settings.maxStackDepth other.dispatched other.before other.after :=
    fun other hother => history_builds hfirst exchanges other (hpast.subset hother)
  obtain ⟨future, hsplit⟩ := hpast
  rw [← hsplit] at hhistory
  obtain ⟨middle, hrun, -⟩ := hhistory.split
  obtain rfl : middle = beat.after := hrun.getLast List.getLast?_concat
  rcases hrun.upper hbuilds hstands.upper with
    ⟨⟨hoccupied, -⟩, -⟩ | ⟨call, during, hsuffix, houtlasts, hplace, hmore, hpositive, id, key, hcall⟩
  · rw [hempty] at hoccupied
    cases hoccupied
  · have hstretch : call :: during <:+: engine.history session exchanges := by
      rw [← hsplit]
      exact hsuffix.isInfix.trans (List.prefix_append _ future).isInfix
    obtain ⟨beneath, rfl⟩ := Nat.exists_eq_succ_of_ne_zero hpositive.ne'
    -- the caller has the called frame on top of it as long as that one is there
    have hcovers : ∀ other ∈ during, other.Covers beneath := fun other hother =>
      have hother := houtlasts other hother
      ⟨hother.before, Nat.lt_of_succ_lt hother.after, hother.noReboot⟩
    obtain ⟨caller, hcaller, hkept⟩ :=
      caller_untouched hfirst exchanges hstretch hcall hplace (hplace ▸ hmore) hcovers
    obtain ⟨turn, hturn, rfl⟩ :=
      round_of_dispatched hfirst exchanges (hstretch.subset List.mem_cons_self) hcall
    obtain ⟨frame, top, callers, suspended, hbefore, hafter⟩ :=
      Turn.levels_of_call hturn hcall (hplace ▸ hmore)
    have htop : (turn.beat engine).before.frameAt? beneath = some frame := by
      have hlength : turn.session.levels.frames.length = beneath + 1 := hplace
      show turn.session.levels.frameAt? beneath = some frame
      rw [hbefore] at hlength ⊢
      exact Levels.frameAt?_top frame hlength
    obtain rfl : frame = caller := Option.some.inj (htop.symm.trans hcaller)
    refine ⟨turn.beat engine, during, id, frame, hsuffix,
      ⟨⟨key, hcall⟩, top, callers, suspended, hbefore, hafter⟩, hplace, houtlasts, ?_⟩
    have hlast : beat ∈ turn.beat engine :: during :=
      List.mem_of_getLast? (by
        obtain ⟨earlier, hearlier⟩ := hsuffix
        have hends := congrArg List.getLast? hearlier
        rwa [List.getLast?_append_of_ne_nil _ (List.cons_ne_nil _ _), List.getLast?_concat] at hends)
    exact Option.some.inj (hstands.frameAt?.symm.trans (hkept beat hlast))

/-- The levels keep their shape in every conversation, in the middle of its turns as well.  No level
holds more frames than allowed, where one is always allowed, and all levels that were interrupted have
frames.  In an exchange at most one level is added, and only by a flow that interrupts another one.
Every frame but the first one of a level has been brought there by a call of the frame directly
beneath it.  A call for which there is no room takes away the frames of the innermost level, and
leaves all others as they are. -/
theorem levels_keep_shape (engine : Engine) (userId id : String) (exchanges : List Exchange) :
    let first := engine.startSession userId id
    let session := engine.after first exchanges
    let limit := engine.settings.maxStackDepth
    (session.levels.Shaped limit ∧ ∀ beat ∈ engine.history first exchanges,
        beat.before.Shaped limit ∧ beat.after.Shaped limit) ∧
      (∀ exchange, (engine.beats session exchange).countP Beat.opens ≤ 1 ∧
        ∀ beat ∈ engine.beats session exchange,
          beat.after.count ≤ session.levels.count + 1 ∧
          (beat.opens = true → ∃ (turn : Turn) (target : Definition),
            engine.opening exchange.journal session exchange.entry =
              .running (turn.switchTo target) ∧
            beat = ⟨session.levels, none, (turn.switchTo target).session.levels⟩)) ∧
      (∀ past beat, past ++ [beat] <+: engine.history first exchanges →
        ∀ upper lower place, beat.after.StandsOn upper lower place →
          ∃ call during id caller, call :: during <:+ past ++ [beat] ∧ call.Calls id caller ∧
            call.before.frames.length = place ∧ (∀ other ∈ during, other.Outlasts place) ∧
            lower = caller.called id) ∧
      ∀ exchange, ∀ turn ∈ engine.trail session exchange, ∀ id key flow,
        (turn.task engine).step? = some (.callFlow id key .call) →
        engine.library.get? key = some flow → limit ≤ turn.session.levels.depth →
        (turn.round engine).turn.session.levels = ⟨[], turn.session.levels.suspended⟩ := by
  intro first session limit
  have hfirst : engine.Reachable first := .start userId id
  have hsession : engine.Reachable session := hfirst.after exchanges
  have hshaped : first.levels.Shaped limit := by
    constructor
    · intro level hlevel
      obtain rfl := List.mem_singleton.1 hlevel
      exact Nat.zero_le _
    · exact nofun
  refine ⟨?_, fun exchange => levels_opened hsession.inOrder hsession.others exchange, ?_, ?_⟩
  · exact (history_follows engine hfirst.inOrder exchanges).shaped
      (history_builds hfirst.inOrder exchanges) hshaped
  · intro past beat hpast upper lower place hstands
    exact called_of_standsOn hfirst.inOrder rfl exchanges hpast hstands
  · intro exchange turn hturn id key flow hcall hflow hfull
    exact Turn.levels_of_full_call (trail_inOrder hsession.inOrder exchange hturn) hcall hflow hfull

end Engine

namespace Kiosk

/-- The same payment where a level holds one frame only. -/
def cramped : Engine :=
  { cashDesk with settings := { cashDesk.settings with maxStackDepth := 1 } }

/-- The frame of the details stands on that of the payment, which has called them.  Where there is
no room for it, the call takes away the payment. -/
theorem details_called :
    (∃ (beat call : Beat) (upper lower caller : Frame) (id : String),
      beat.after.StandsOn upper lower 1 ∧ upper.flowName = "Details" ∧ call.Calls id caller ∧
      lower = caller.called id) ∧
    ∃ turn ∈ cramped.trail (cramped.startSession "guest" "desk") (guest "Payment"),
      turn.session.levels.depth = 1 ∧
        (turn.round cramped).turn.session.levels = ⟨[], turn.session.levels.suspended⟩ := by
  obtain ⟨-, -, hcalls, -⟩ :=
    cashDesk.levels_keep_shape "guest" "desk" (["Payment"].map guest)
  obtain ⟨-, -, -, hfull⟩ := cramped.levels_keep_shape "guest" "desk" []
  constructor
  · have hlast : ((cashDesk.history (cashDesk.startSession "guest" "desk")
          (["Payment"].map guest)).getLast?.any fun beat =>
        decide (beat.after.current.map Frame.flowName = ["Details", "Payment"]) &&
          beat.after.suspended.isEmpty) = true := by decide +kernel
    obtain ⟨beat, hbeat, hshape⟩ := (Option.any_eq_true _ _).1 hlast
    simp only [Bool.and_eq_true, decide_eq_true_eq, List.isEmpty_iff] at hshape
    obtain ⟨hnames, hsuspended⟩ := hshape
    obtain ⟨upper, callers, hcurrent, hupper, hcallers⟩ := List.map_eq_cons_iff.1 hnames
    obtain ⟨lower, none, hlower, -, hnone⟩ := List.map_eq_cons_iff.1 hcallers
    obtain rfl := List.map_eq_nil_iff.1 hnone
    have hstands : beat.after.StandsOn upper lower 1 := by
      refine ⟨[], [], [], [], ?_, rfl⟩
      simp only [Levels.inward, hsuspended, hcurrent, hlower, List.nil_append]
    obtain ⟨past, hpast⟩ := List.getLast?_eq_some_iff.1 hbeat
    obtain ⟨call, during, id, caller, -, hcall, -, -, hcaller⟩ :=
      hcalls past beat (by rw [← hpast]) upper lower 1 hstands
    exact ⟨beat, call, upper, lower, caller, id, hstands, hupper, hcall, hcaller⟩
  · have hcall : ((cramped.trail (cramped.startSession "guest" "desk") (guest "Payment")).any
        fun turn => decide (turn.session.levels.depth = 1) &&
          decide (((turn.task cramped).step?.bind callee?) = some ("details", "Details"))) = true := by
      decide +kernel
    obtain ⟨turn, hturn, hrest⟩ := List.any_eq_true.1 hcall
    simp only [Bool.and_eq_true, decide_eq_true_eq] at hrest
    obtain ⟨hdepth, hcallee⟩ := hrest
    obtain ⟨step, hstep, hcallee⟩ := Option.bind_eq_some_iff.1 hcallee
    rw [callee?_eq_some] at hcallee
    subst hcallee
    obtain ⟨flow, hflow⟩ := Option.isSome_iff_exists.1
      (show (cramped.library.get? "Details").isSome = true by decide +kernel)
    exact ⟨turn, hturn, hdepth, hfull (guest "Payment") turn hturn _ _ flow hstep hflow (by
      rw [hdepth]; decide)⟩

end Kiosk

end Parley
