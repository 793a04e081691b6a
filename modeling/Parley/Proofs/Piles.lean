import Mathlib.Algebra.Ring.Nat
import Parley.Session.Stored

/-!
# Levels as piles of frames

The innermost level of a session is kept apart from those it suspended, and every
level has its newest frame first.  The plain picture of the same thing is a list
of piles that is never empty: the outermost pile comes first, on each pile the
oldest frame comes first, and only the last pile is worked on.  Whatever is done
to levels, they answer what the piles answer and show what the piles show, and no
frame is lost or doubled on the way.
-/

set_option autoImplicit false

namespace Parley

/-- What can be done to the levels of a session. -/
inductive LevelOp where
  /-- A frame is put on the innermost level. -/
  | push (frame : Frame)
  /-- The frame that runs is taken away. -/
  | pop
  /-- A level is opened. -/
  | interrupt
  /-- The innermost level is closed. -/
  | leave
  /-- The innermost level is emptied. -/
  | drain
  /-- Everything is taken away. -/
  | reset

namespace LevelOp

/-- The frames that an operation brings. -/
def brought : LevelOp → List Frame
  | push frame => [frame]
  | _ => []

end LevelOp

/-- What is answered to an operation on levels. -/
inductive LevelAnswer where
  /-- Nothing is answered. -/
  | done
  /-- The frame that was taken away, if there was one. -/
  | popped (frame : Option Frame)
  /-- The index of the new level; the outermost one has the index zero. -/
  | opened (index : Nat)
  /-- The frames of the level that was closed, the oldest first. -/
  | closed (frames : List Frame)
  /-- The level is not closed. -/
  | refused (error : LevelError)
  /-- The frames that were removed, in the order in which they are handed out. -/
  | removed (frames : List Frame)

namespace LevelAnswer

/-- The frames that an answer hands out. -/
def handedOut : LevelAnswer → List Frame
  | popped frame => frame.toList
  | closed frames => frames
  | removed frames => frames
  | _ => []

end LevelAnswer

/-- The state after operations one after the other, and the answers to them. -/
def runOps {State : Type} (perform : State → LevelOp → State × LevelAnswer) :
    State → List LevelOp → State × List LevelAnswer
  | state, [] => (state, [])
  | state, op :: ops =>
    let (next, answer) := perform state op
    let (last, answers) := runOps perform next ops
    (last, answer :: answers)

/-! ## Piles -/

/-- Piles of frames, the outermost first; the oldest frame of a pile comes first. -/
@[ext]
structure Piles where
  /-- The piles. -/
  list : List (List Frame)
  /-- There is a pile. -/
  nonempty : list ≠ []

namespace Piles

/-- One pile without frames. -/
def empty : Piles :=
  ⟨[[]], List.cons_ne_nil _ _⟩

/-- The pile that is worked on. -/
def last (piles : Piles) : List Frame :=
  piles.list.getLast piles.nonempty

/-- The piles with another one in the place of the last. -/
def withLast (piles : Piles) (pile : List Frame) : Piles :=
  ⟨piles.list.dropLast ++ [pile], by simp⟩

/-- The frame that runs. -/
def top? (piles : Piles) : Option Frame :=
  piles.last.getLast?

/-- The number of frames on the last pile. -/
def depth (piles : Piles) : Nat :=
  piles.last.length

/-- The number of piles. -/
def count (piles : Piles) : Nat :=
  piles.list.length

/-- The number of frames. -/
def total (piles : Piles) : Nat :=
  (piles.list.map List.length).sum

/-- All frames, the oldest of the outermost pile first. -/
def frames (piles : Piles) : List Frame :=
  piles.list.flatten

/-- What is done to piles, and what they answer. -/
def perform (piles : Piles) : LevelOp → Piles × LevelAnswer
  | .push frame => (piles.withLast (piles.last ++ [frame]), .done)
  | .pop => (piles.withLast piles.last.dropLast, .popped piles.last.getLast?)
  | .interrupt => (⟨piles.list ++ [[]], by simp⟩, .opened piles.list.length)
  | .leave =>
    if h : piles.list.dropLast = [] then (piles, .refused .onlyOneLevel)
    else (⟨piles.list.dropLast, h⟩, .closed piles.last)
  | .drain => (piles.withLast [], .removed piles.last.reverse)
  | .reset => (empty, .removed piles.frames.reverse)

end Piles

/-! ## Levels as piles -/

namespace Levels

/-- What is done to levels, and what they answer. -/
def perform (levels : Levels) : LevelOp → Levels × LevelAnswer
  | .push frame => (levels.push frame, .done)
  | .pop => (levels.pop.1, .popped levels.pop.2)
  | .interrupt => (levels.interrupt, .opened levels.interrupt.suspended.length)
  | .leave =>
    match levels.leave with
    | .ok (lower, level) => (lower, .closed level.reverse)
    | .error error => (levels, .refused error)
  | .drain => (levels.drain.1, .removed levels.drain.2)
  | .reset => (levels.reset.1, .removed levels.reset.2)

/-- The piles that levels stand for. -/
def piles (levels : Levels) : Piles :=
  ⟨levels.toList.map List.reverse, by simp [toList, inward]⟩

/-- Levels and piles look the same from outside. -/
structure LooksLike (levels : Levels) (piles : Piles) : Prop where
  shape : levels.toList.map List.reverse = piles.list
  frames : levels.frames.reverse = piles.frames
  top : levels.top? = piles.top?
  depth : levels.depth = piles.depth
  count : levels.count = piles.count
  total : levels.frames.length = piles.total
  idle : levels.isIdle = decide (piles.total = 0)

variable (levels : Levels)

/-- The innermost level comes last. -/
theorem list_piles :
    levels.piles.list = levels.suspended.reverse.map List.reverse ++ [levels.current.reverse] := by
  simp [piles, toList, inward]

/-- The pile that is worked on is the innermost level. -/
@[simp] theorem last_piles : levels.piles.last = levels.current.reverse := by
  simp [Piles.last, list_piles]

/-- The other piles are the levels that were suspended. -/
@[simp] theorem dropLast_piles :
    levels.piles.list.dropLast = levels.suspended.reverse.map List.reverse := by
  simp [list_piles]

/-- All frames of the piles are all frames of the levels, the other way round. -/
theorem frames_piles : levels.piles.frames = levels.frames.reverse := by
  simp [Piles.frames, piles, toList, frames, List.reverse_flatten, List.map_reverse]

/-- Levels look like the piles they stand for. -/
theorem looksLike_piles : levels.LooksLike levels.piles := by
  have htotal : levels.frames.length = levels.piles.total := by
    rw [← List.length_reverse, ← frames_piles, Piles.frames, List.length_flatten, Piles.total]
  refine ⟨rfl, (frames_piles levels).symm, ?_, ?_, ?_, htotal, ?_⟩
  · simp [Piles.top?, top?]
  · simp [Piles.depth, depth]
  · simp [Piles.count, count, list_piles]
  · rw [← htotal, isIdle, Bool.eq_iff_iff]
    simp

/-- Changing the innermost level changes the last pile. -/
theorem piles_withCurrent (level : Level) :
    (Levels.mk level levels.suspended).piles = levels.piles.withLast level.reverse := by
  ext1
  simp [list_piles, Piles.withLast]

/-- An operation on levels is that operation on the piles they stand for, with the same answer. -/
theorem perform_piles (op : LevelOp) :
    levels.piles.perform op = ((levels.perform op).1.piles, (levels.perform op).2) := by
  cases op with
  | push frame =>
      have hpush := levels.piles_withCurrent (frame :: levels.current)
      simp [Piles.perform, perform, push, hpush]
  | pop =>
      have hpop := levels.piles_withCurrent levels.current.tail
      simp [Piles.perform, perform, pop, hpop, List.dropLast_reverse]
  | interrupt =>
      have hopen : levels.interrupt.piles.list = levels.piles.list ++ [[]] := by
        simp [list_piles, interrupt, inward]
      refine Prod.ext (Piles.ext hopen.symm) ?_
      simp [Piles.perform, perform, interrupt, inward, list_piles]
  | leave =>
      obtain ⟨current, suspended⟩ := levels
      -- the last of several piles goes away, the only one stays
      cases suspended with
      | nil => simp [Piles.perform, perform, leave]
      | cons level suspended =>
          refine Prod.ext (Piles.ext ?_) ?_
          · simp [Piles.perform, perform, leave, list_piles]
          · simp [Piles.perform, perform, leave]
  | drain =>
      have hdrain := levels.piles_withCurrent []
      simp [Piles.perform, perform, drain, hdrain]
  | reset =>
      refine Prod.ext (Piles.ext ?_) ?_
      · simp [Piles.perform, perform, reset, list_piles, Piles.empty, empty]
      · simp [Piles.perform, perform, reset, frames_piles]

/-- Operations on levels are those operations on the piles they stand for. -/
theorem runOps_piles (ops : List LevelOp) :
    runOps Piles.perform levels.piles ops =
      ((runOps perform levels ops).1.piles, (runOps perform levels ops).2) := by
  induction ops generalizing levels with
  | nil => rfl
  | cons op ops ih =>
      simp only [runOps, perform_piles, ih]

/-! ## Nothing is lost -/

/-- An operation neither loses nor doubles a frame. -/
theorem perm_perform (op : LevelOp) :
    (op.brought ++ levels.frames).Perm
      ((levels.perform op).1.frames ++ (levels.perform op).2.handedOut) := by
  obtain ⟨current, suspended⟩ := levels
  cases op with
  | push frame => simp [LevelOp.brought, perform, LevelAnswer.handedOut, push, frames, inward]
  | pop =>
      cases current with
      | nil => simp [LevelOp.brought, perform, LevelAnswer.handedOut, pop, frames, inward]
      | cons top callers =>
          simpa [LevelOp.brought, perform, LevelAnswer.handedOut, pop, frames, inward]
            using (List.perm_append_singleton top (callers ++ suspended.flatten)).symm
  | interrupt => simp [LevelOp.brought, perform, LevelAnswer.handedOut, interrupt, frames, inward]
  | leave =>
      cases suspended with
      | nil => simp [LevelOp.brought, perform, LevelAnswer.handedOut, leave]
      | cons level suspended =>
          simp only [LevelOp.brought, perform, LevelAnswer.handedOut, leave, frames, inward,
            List.nil_append, List.flatten_cons]
          exact List.perm_append_comm.trans
            ((List.reverse_perm current).symm.append_left (level ++ suspended.flatten))
  | drain =>
      simpa [LevelOp.brought, perform, LevelAnswer.handedOut, drain, frames, inward]
        using List.perm_append_comm
  | reset =>
      simp [LevelOp.brought, perform, LevelAnswer.handedOut, reset, frames, inward, empty]

open scoped List in
/-- Operations neither lose nor double a frame. -/
theorem perm_runOps (ops : List LevelOp) :
    (ops.flatMap LevelOp.brought ++ levels.frames).Perm
      ((runOps perform levels ops).1.frames
        ++ (runOps perform levels ops).2.flatMap LevelAnswer.handedOut) := by
  induction ops generalizing levels with
  | nil => simp [runOps]
  | cons op ops ih =>
      have hstep := perm_perform levels op
      have hrest := ih (levels.perform op).1
      simp only [runOps, List.flatMap_cons, List.append_assoc]
      -- what the operation hands out is moved past what the later ones bring
      calc op.brought ++ (ops.flatMap LevelOp.brought ++ levels.frames)
          ~ ops.flatMap LevelOp.brought ++ (op.brought ++ levels.frames) :=
            List.perm_append_comm_assoc _ _ _
        _ ~ ops.flatMap LevelOp.brought
              ++ ((levels.perform op).1.frames ++ (levels.perform op).2.handedOut) :=
            hstep.append_left _
        _ ~ ((runOps perform (levels.perform op).1 ops).1.frames
              ++ (runOps perform (levels.perform op).1 ops).2.flatMap LevelAnswer.handedOut)
              ++ (levels.perform op).2.handedOut := by
            rw [← List.append_assoc]
            exact hrest.append_right _
        _ ~ (runOps perform (levels.perform op).1 ops).1.frames
              ++ ((levels.perform op).2.handedOut
                ++ (runOps perform (levels.perform op).1 ops).2.flatMap LevelAnswer.handedOut) := by
            rw [List.append_assoc]
            exact List.perm_append_comm.append_left _

/-- A level is not left exactly when it is the only one. -/
theorem leave_eq_error_iff {error : LevelError} :
    levels.leave = .error error ↔ levels.count = 1 := by
  obtain ⟨current, suspended⟩ := levels
  cases suspended <;> simp [leave, count]

/-- A level that is not left stays as it is. -/
theorem perform_leave_of_error {error : LevelError} (h : levels.leave = .error error) :
    levels.perform .leave = (levels, .refused error) := by
  rw [perform, h]

end Levels

example (a b c : Frame) :
    (runOps Levels.perform .empty [.push a, .interrupt, .push b, .push c, .reset]).2 =
      [.done, .opened 1, .done, .done, .removed [c, b, a]] := by
  rfl

end Parley
