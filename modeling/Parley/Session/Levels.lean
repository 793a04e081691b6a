import Parley.Session.Frame

/-!
# Levels

The frames of a session stand on levels.  Within a level a frame was called by
the one beneath it; a level as a whole interrupts the one below.  Only the
innermost level runs.  There is always at least one level: the innermost one is
kept apart from those it has suspended.
-/

set_option autoImplicit false

namespace Parley

/-- Frames of which each one was called by the next; the one that runs comes first. -/
abbrev Level : Type :=
  List Frame

/-- The levels of a session. -/
structure Levels where
  /-- The innermost level. -/
  current : Level
  /-- The levels below, the one that was interrupted last comes first. -/
  suspended : List Level

/-- A level cannot be left. -/
inductive LevelError where
  /-- There is no other level. -/
  | onlyOneLevel
  deriving DecidableEq, Repr

namespace LevelError

/-- The text of the error. -/
def message : LevelError → String
  | onlyOneLevel => "cannot switch to a previous stack: only one stack remains"

end LevelError

namespace Levels

/-- One level without frames. -/
def empty : Levels :=
  ⟨[], []⟩

/-- All levels, the innermost first. -/
def inward (levels : Levels) : List Level :=
  levels.current :: levels.suspended

/-- All levels, the outermost first. -/
def toList (levels : Levels) : List Level :=
  levels.inward.reverse

/-- The levels out of a list with the outermost first; of an empty list one level. -/
def ofList (list : List Level) : Levels :=
  match list.reverse with
  | [] => empty
  | current :: suspended => ⟨current, suspended⟩

/-- All frames, the innermost first. -/
def frames (levels : Levels) : List Frame :=
  levels.inward.flatten

/-- The frame that runs. -/
def top? (levels : Levels) : Option Frame :=
  levels.current.head?

/-- The number of levels. -/
def count (levels : Levels) : Nat :=
  levels.suspended.length + 1

/-- The number of frames on the innermost level. -/
def depth (levels : Levels) : Nat :=
  levels.current.length

/-- There are no frames. -/
def isIdle (levels : Levels) : Bool :=
  levels.frames.isEmpty

/-- The levels with a further frame on the innermost one. -/
def push (levels : Levels) (frame : Frame) : Levels :=
  { levels with current := frame :: levels.current }

/-- The levels without the frame that runs, and that frame. -/
def pop (levels : Levels) : Levels × Option Frame :=
  ({ levels with current := levels.current.tail }, levels.current.head?)

/-- The levels with the frame that runs changed. -/
def modifyTop (levels : Levels) (change : Frame → Frame) : Levels :=
  match levels.current with
  | [] => levels
  | frame :: callers => { levels with current := change frame :: callers }

/-- The levels with a new one that interrupts the innermost one. -/
def interrupt (levels : Levels) : Levels :=
  ⟨[], levels.inward⟩

/-- The levels without the innermost one, and that one. -/
def leave (levels : Levels) : Except LevelError (Levels × Level) :=
  match levels.suspended with
  | [] => .error .onlyOneLevel
  | level :: suspended => .ok (⟨level, suspended⟩, levels.current)

/-- The levels with the innermost one emptied, and its frames, the one that ran first. -/
def drain (levels : Levels) : Levels × List Frame :=
  ({ levels with current := [] }, levels.current)

/-- One level without frames, and the frames of all levels, the innermost first. -/
def reset (levels : Levels) : Levels × List Frame :=
  (empty, levels.frames)

/-- Equality of levels. -/
def sameLevel (a b : Level) : Bool :=
  a.length == b.length && (a.zip b).all fun (x, y) => x.same y

/-- Equality of the levels of two sessions. -/
def same (a b : Levels) : Bool :=
  sameLevel a.current b.current && a.suspended.length == b.suspended.length
    && (a.suspended.zip b.suspended).all fun (x, y) => sameLevel x y

end Levels

end Parley
