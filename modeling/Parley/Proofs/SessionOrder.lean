import Parley.Proofs.Scenes
import Parley.Proofs.Scopes
import Parley.Session.Basic
import Parley.Turn.Handover

/-!
# Sessions in order

Two invariants hold in every session that an engine leads, and in the middle of
its turns as well.  The frames of a level share one scope, and no other level has
it; the frames that can run have active transactions, and of the frames on a
level that was interrupted the one on top has a completed transaction.  What is
shown here is that they outlast everything that is done to levels and scopes.
-/

set_option autoImplicit false

namespace Parley

namespace Levels

/-- A frame stands on the innermost level or on one below. -/
theorem mem_frames {levels : Levels} {frame : Frame} :
    frame ∈ levels.frames ↔
      frame ∈ levels.current ∨ ∃ level ∈ levels.suspended, frame ∈ level := by
  simp [frames, inward]

/-- The frame that runs is the head of the innermost level. -/
theorem top?_eq_some {levels : Levels} {frame : Frame} :
    levels.top? = some frame ↔ ∃ callers suspended, levels = ⟨frame :: callers, suspended⟩ := by
  obtain ⟨current, suspended⟩ := levels
  cases current with
  | nil => simp [top?]
  | cons top callers => simp [top?]

/-- Changing the frame that runs changes the head of the innermost level. -/
theorem modifyTop_eq (levels : Levels) (change : Frame → Frame) :
    levels.modifyTop change =
      ⟨levels.current.modifyHead change, levels.suspended⟩ := by
  obtain ⟨current, suspended⟩ := levels
  cases current <;> rfl

/-- Every frame of a level with a changed head was there, or comes from the head. -/
theorem mem_modifyHead {level : Level} {change : Frame → Frame} {frame : Frame}
    (h : frame ∈ level.modifyHead change) :
    (∃ top, level.head? = some top ∧ frame = change top) ∨ frame ∈ level.tail := by
  cases level with
  | nil => cases h
  | cons top callers =>
      rcases List.mem_cons.1 h with rfl | hcallers
      · exact .inl ⟨top, rfl, rfl⟩
      · exact .inr hcallers

/-! ## Scopes -/

/-- Levels share and separate scopes as they should: every frame's scope exists, numbers are used
only once, a level has one scope, and different levels have different ones. -/
structure WellScoped (levels : Levels) (scopes : Scopes) : Prop where
  present : ∀ frame ∈ levels.frames, scopes.has frame.scope = true
  fresh : ∀ id, scopes.has id = true → id < scopes.nextId
  shared : ∀ level ∈ levels.inward, ∀ f ∈ level, ∀ g ∈ level, f.scope = g.scope
  apart : levels.inward.Pairwise fun a b => ∀ f ∈ a, ∀ g ∈ b, f.scope ≠ g.scope

namespace WellScoped

variable {levels : Levels} {scopes : Scopes} {current : Level} {suspended : List Level}

/-- No frames need no scopes. -/
theorem empty (hfresh : ∀ id, scopes.has id = true → id < scopes.nextId) :
    Levels.empty.WellScoped scopes := by
  refine ⟨?_, hfresh, ?_, ?_⟩
  · simp [Levels.empty, Levels.frames, Levels.inward]
  · simp [Levels.empty, Levels.inward]
  · simp [Levels.empty, Levels.inward]

/-- The innermost level may change as long as its scope is the one it had. -/
theorem withCurrent (h : levels.WellScoped scopes)
    (hscope : ∀ f ∈ current, ∃ g ∈ levels.current, f.scope = g.scope) :
    (Levels.mk current levels.suspended).WellScoped scopes := by
  refine ⟨?_, h.fresh, ?_, ?_⟩
  · intro frame hframe
    rcases mem_frames.1 hframe with hcurrent | hsuspended
    · obtain ⟨g, hg, heq⟩ := hscope frame hcurrent
      rw [heq]
      exact h.present g (mem_frames.2 (.inl hg))
    · exact h.present frame (mem_frames.2 (.inr hsuspended))
  · intro level hlevel f hf g hg
    rcases List.mem_cons.1 hlevel with rfl | hsuspended
    · obtain ⟨f', hf', hfeq⟩ := hscope f hf
      obtain ⟨g', hg', hgeq⟩ := hscope g hg
      rw [hfeq, hgeq]
      exact h.shared levels.current List.mem_cons_self f' hf' g' hg'
    · exact h.shared level (List.mem_cons_of_mem _ hsuspended) f hf g hg
  · obtain ⟨hfirst, hrest⟩ := List.pairwise_cons.1 h.apart
    refine List.pairwise_cons.2 ⟨?_, hrest⟩
    intro level hlevel f hf g hg
    obtain ⟨f', hf', hfeq⟩ := hscope f hf
    rw [hfeq]
    exact hfirst level hlevel f' hf' g hg

/-- A change of the frame that runs may not move it to another scope. -/
theorem modifyTop (h : levels.WellScoped scopes) {change : Frame → Frame}
    (hscope : ∀ frame, (change frame).scope = frame.scope) :
    (levels.modifyTop change).WellScoped scopes := by
  rw [modifyTop_eq]
  apply h.withCurrent
  intro f hf
  rcases mem_modifyHead hf with ⟨top, htop, rfl⟩ | hcallers
  · exact ⟨top, List.mem_of_head? htop, hscope top⟩
  · exact ⟨f, List.mem_of_mem_tail hcallers, rfl⟩

/-- The variables of an existing scope may change. -/
theorem put (h : levels.WellScoped scopes) {id : Nat} (hid : scopes.has id = true)
    (vars : Fields) : levels.WellScoped (scopes.put id vars) := by
  refine ⟨?_, ?_, h.shared, h.apart⟩
  · intro frame hframe
    exact Scopes.has_put.2 (.inr (h.present frame hframe))
  · intro other hother
    rcases Scopes.has_put.1 hother with rfl | hbefore
    · exact h.fresh other hid
    · exact h.fresh other hbefore

/-- The innermost level may be left. -/
theorem leave {level : Level} (h : (Levels.mk current (level :: suspended)).WellScoped scopes) :
    (Levels.mk level suspended).WellScoped scopes := by
  refine ⟨?_, h.fresh, ?_, (List.pairwise_cons.1 h.apart).2⟩
  · intro frame hframe
    refine h.present frame (mem_frames.2 (.inr ?_))
    rcases mem_frames.1 hframe with hlevel | ⟨other, hother, hmem⟩
    · exact ⟨level, List.mem_cons_self, hlevel⟩
    · exact ⟨other, List.mem_cons_of_mem _ hother, hmem⟩
  · intro other hother
    exact h.shared other (List.mem_cons_of_mem _ hother)

/-- A new level has no frames, so it has no scope either. -/
theorem interrupt (h : levels.WellScoped scopes) : levels.interrupt.WellScoped scopes := by
  refine ⟨?_, h.fresh, ?_, ?_⟩
  · intro frame hframe
    refine h.present frame (mem_frames.2 ?_)
    rcases mem_frames.1 hframe with hnone | ⟨level, hlevel, hmem⟩
    · cases hnone
    · rcases List.mem_cons.1 hlevel with rfl | hsuspended
      · exact .inl hmem
      · exact .inr ⟨level, hsuspended, hmem⟩
  · intro level hlevel
    rcases List.mem_cons.1 hlevel with rfl | hother
    · intro f hf
      cases hf
    · exact h.shared level hother
  · exact List.pairwise_cons.2 ⟨by simp [Levels.interrupt], h.apart⟩

/-- A flow that is started on a level without frames gets a scope that no other level has. -/
theorem start (h : (Levels.mk [] suspended).WellScoped scopes) {frame : Frame}
    (hscope : frame.scope = scopes.nextId) (vars : Fields) :
    (Levels.mk [frame] suspended).WellScoped (scopes.allocate vars).1 := by
  -- numbers are given out in order, so the next one is above all those in use
  have hbelow : ∀ level ∈ suspended, ∀ g ∈ level, g.scope < scopes.nextId := by
    intro level hlevel g hg
    exact h.fresh _ (h.present g (mem_frames.2 (.inr ⟨level, hlevel, hg⟩)))
  refine ⟨?_, ?_, ?_, ?_⟩
  · intro other hother
    rcases mem_frames.1 hother with hnew | hsuspended
    · obtain rfl := List.mem_singleton.1 hnew
      exact Scopes.has_allocate.2 (.inl hscope)
    · exact Scopes.has_allocate.2 (.inr (h.present other (mem_frames.2 (.inr hsuspended))))
  · intro id hid
    rcases Scopes.has_allocate.1 hid with rfl | hbefore
    · exact Nat.lt_succ_self _
    · exact Nat.lt_succ_of_lt (h.fresh id hbefore)
  · intro level hlevel f hf g hg
    rcases List.mem_cons.1 hlevel with rfl | hsuspended
    · rw [List.mem_singleton.1 hf, List.mem_singleton.1 hg]
    · exact h.shared level (List.mem_cons_of_mem _ hsuspended) f hf g hg
  · refine List.pairwise_cons.2 ⟨?_, (List.pairwise_cons.1 h.apart).2⟩
    intro level hlevel f hf g hg
    rw [List.mem_singleton.1 hf, hscope]
    exact Nat.ne_of_gt (hbelow level hlevel g hg)

/-- The scopes that no frame refers to may be dropped. -/
theorem collect (h : levels.WellScoped scopes) :
    levels.WellScoped (scopes.retain (levels.frames.map Frame.scope)) := by
  refine ⟨?_, ?_, h.shared, h.apart⟩
  · intro frame hframe
    exact Scopes.has_retain.2 ⟨List.mem_map_of_mem hframe, h.present frame hframe⟩
  · intro id hid
    exact h.fresh id (Scopes.has_retain.1 hid).2

end WellScoped

/-! ## Transactions -/

/-- The transactions of the frames are as far as they should be: all those of the innermost level
are active, on every other level the one on top is completed and those beneath are active, and the
flows that were replaced have failed with that as the reason. -/
structure WellAccounted (levels : Levels) : Prop where
  running : ∀ frame ∈ levels.current, frame.transaction.state = .active
  paused : ∀ level ∈ levels.suspended, ∃ top callers, level = top :: callers ∧
    top.transaction.state = .completed ∧ ∀ frame ∈ callers, frame.transaction.state = .active
  replaced : ∀ frame ∈ levels.frames, ∀ former ∈ frame.replaced,
    former.state = .failed ∧ former.failureReason = some Stage.replacedReason

namespace WellAccounted

variable {levels : Levels} {current : Level} {suspended : List Level} {top : Frame}

/-- No frames have no transactions. -/
theorem empty : Levels.empty.WellAccounted := by
  refine ⟨?_, ?_, ?_⟩
  · simp [Levels.empty]
  · simp [Levels.empty]
  · simp [Levels.empty, Levels.frames, Levels.inward]

/-- The innermost level may change to frames with active transactions. -/
theorem withCurrent (h : levels.WellAccounted)
    (hactive : ∀ f ∈ current, f.transaction.state = .active)
    (hreplaced : ∀ f ∈ current, ∀ former ∈ f.replaced,
      former.state = .failed ∧ former.failureReason = some Stage.replacedReason) :
    (Levels.mk current levels.suspended).WellAccounted := by
  refine ⟨hactive, h.paused, ?_⟩
  intro frame hframe
  rcases mem_frames.1 hframe with hcurrent | hsuspended
  · exact hreplaced frame hcurrent
  · exact h.replaced frame (mem_frames.2 (.inr hsuspended))

/-- A change of the frame that runs may not touch its transactions. -/
theorem modifyTop (h : levels.WellAccounted) {change : Frame → Frame}
    (htransaction : ∀ frame, (change frame).transaction = frame.transaction)
    (hreplaced : ∀ frame, (change frame).replaced = frame.replaced) :
    (levels.modifyTop change).WellAccounted := by
  rw [modifyTop_eq]
  apply h.withCurrent
  · intro f hf
    rcases mem_modifyHead hf with ⟨top, htop, rfl⟩ | hcallers
    · rw [htransaction]
      exact h.running top (List.mem_of_head? htop)
    · exact h.running f (List.mem_of_mem_tail hcallers)
  · intro f hf
    rcases mem_modifyHead hf with ⟨top, htop, rfl⟩ | hcallers
    · rw [hreplaced]
      exact h.replaced top (mem_frames.2 (.inl (List.mem_of_head? htop)))
    · exact h.replaced f (mem_frames.2 (.inl (List.mem_of_mem_tail hcallers)))

/-- An interruption completes the transaction of the frame that ran. -/
theorem interrupt (h : (Levels.mk (top :: current) suspended).WellAccounted) {paused : Frame}
    (hcompleted : paused.transaction.state = .completed)
    (hreplaced : paused.replaced = top.replaced) :
    (Levels.mk [] ((paused :: current) :: suspended)).WellAccounted := by
  refine ⟨by simp, ?_, ?_⟩
  · intro level hlevel
    rcases List.mem_cons.1 hlevel with rfl | hsuspended
    · exact ⟨paused, current, rfl, hcompleted, fun f hf =>
        h.running f (List.mem_cons_of_mem _ hf)⟩
    · exact h.paused level hsuspended
  · intro frame hframe
    rcases mem_frames.1 hframe with hnone | ⟨level, hlevel, hmem⟩
    · cases hnone
    · rcases List.mem_cons.1 hlevel with rfl | hsuspended
      · rcases List.mem_cons.1 hmem with rfl | hcallers
        · rw [hreplaced]
          exact h.replaced top (mem_frames.2 (.inl List.mem_cons_self))
        · exact h.replaced frame (mem_frames.2 (.inl (List.mem_cons_of_mem _ hcallers)))
      · exact h.replaced frame (mem_frames.2 (.inr ⟨level, hsuspended, hmem⟩))

/-- The frame that an interrupted level goes on with has an active transaction again. -/
theorem resume (h : (Levels.mk [] ((top :: current) :: suspended)).WellAccounted) {resumed : Frame}
    (hactive : resumed.transaction.state = .active) (hreplaced : resumed.replaced = top.replaced) :
    (Levels.mk (resumed :: current) suspended).WellAccounted := by
  have hbelow : ∀ f ∈ top :: current, f ∈ (Levels.mk [] ((top :: current) :: suspended)).frames :=
    fun f hf => mem_frames.2 (.inr ⟨_, List.mem_cons_self, hf⟩)
  obtain ⟨other, callers, heq, -, hcallers⟩ := h.paused _ List.mem_cons_self
  cases heq
  refine ⟨?_, fun level hlevel => h.paused level (List.mem_cons_of_mem _ hlevel), ?_⟩
  · intro f hf
    rcases List.mem_cons.1 hf with rfl | hcurrent
    · exact hactive
    · exact hcallers f hcurrent
  · intro frame hframe
    rcases mem_frames.1 hframe with hcurrent | ⟨level, hlevel, hmem⟩
    · rcases List.mem_cons.1 hcurrent with rfl | hcallers
      · rw [hreplaced]
        exact h.replaced top (hbelow top List.mem_cons_self)
      · exact h.replaced frame (hbelow frame (List.mem_cons_of_mem _ hcallers))
    · exact h.replaced frame (mem_frames.2 (.inr ⟨level, List.mem_cons_of_mem _ hlevel, hmem⟩))

end WellAccounted

end Levels

namespace Session

/-- Scopes and transactions of a session are in order. -/
structure InOrder (session : Session) : Prop where
  wellScoped : session.levels.WellScoped session.scopes
  wellAccounted : session.levels.WellAccounted

namespace InOrder

variable {session : Session} {frame : Frame}

/-- The frame that runs has variables. -/
theorem exists_vars (h : session.InOrder) (htop : session.levels.top? = some frame) :
    ∃ vars, session.scopes.get? frame.scope = some vars :=
  Scopes.has_iff.1
    (h.wellScoped.present frame (Levels.mem_frames.2 (.inl (List.mem_of_head? htop))))

/-- The transaction of the frame that runs is active. -/
theorem active_of_top (h : session.InOrder) (htop : session.levels.top? = some frame) :
    frame.transaction.state = .active :=
  h.wellAccounted.running frame (List.mem_of_head? htop)

end InOrder

end Session

end Parley
