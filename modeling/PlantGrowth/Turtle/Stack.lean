import PlantGrowth.Skeleton
import PlantGrowth.Fault

/-!
# The turtle's stack

While the turtle reads a text it keeps a stack of frames: the one it stands on and,
below it, those it has saved. The lowest frame can be replaced but never removed, so
there is always one to stand on; a closing bracket without an opening one is counted
and changes nothing else.

`Stack.restore_save` says that saving and restoring leaves the frames as they were.
-/

namespace PlantGrowth

/-- Where the turtle stands. -/
structure Frame where
  joint : JointId
  /-- Turn in radians that no node has taken up yet. -/
  rotation : Scalar
  /-- Number of brackets around the place, those of earlier generations included. -/
  depth : UInt32

/-- Stack of frames with counts of what happened to it. -/
structure Stack where
  /-- Lowest frame. -/
  base : Frame
  /-- Frames above the lowest one, the topmost first. -/
  nested : List Frame := []
  saves : UInt32 := 0
  restores : UInt32 := 0
  /-- Closing brackets that had no opening one. -/
  strays : UInt32 := 0

namespace Stack

/-- Stack of one frame. -/
def ofFrame (base : Frame) : Stack := { base }

/-- Frame on which the turtle stands. -/
def top (s : Stack) : Frame := s.nested.headD s.base

/-- The stack with another top frame. -/
def setTop (s : Stack) (frame : Frame) : Stack :=
  match s.nested with
  | [] => { s with base := frame }
  | _ :: below => { s with nested := frame :: below }

/-- The stack with the top frame turned. -/
def turn (s : Stack) (radians : Scalar) : Stack :=
  s.setTop { s.top with rotation := s.top.rotation + radians }

/-- The stack with a copy of the top frame, one level deeper, on top. -/
def save (s : Stack) : Except Fault Stack := do
  let depth ← addWord s.top.depth 1
  let saves ← addWord s.saves 1
  return { s with nested := { s.top with depth } :: s.nested, saves }

/-- The stack without its top frame, and whether there was one above the lowest. -/
def restore (s : Stack) : Except Fault (Bool × Stack) :=
  match s.nested with
  | _ :: below => do
    let restores ← addWord s.restores 1
    return (true, { s with nested := below, restores })
  | [] => do
    let strays ← addWord s.strays 1
    return (false, { s with strays })

/-- Whether no bracket is open. -/
def isOuter (s : Stack) : Bool := s.nested.isEmpty

/-- Number of open brackets. -/
def unclosed (s : Stack) : Nat := s.nested.length

/-- Number of frames. -/
def size (s : Stack) : Nat := 1 + s.nested.length

@[simp] theorem top_setTop (s : Stack) (frame : Frame) : (s.setTop frame).top = frame := by
  unfold setTop top
  split <;> simp [*]

@[simp] theorem unclosed_setTop (s : Stack) (frame : Frame) :
    (s.setTop frame).unclosed = s.unclosed := by
  unfold setTop unclosed
  split <;> simp [*]

/-- Restoring what was saved brings the frames back. -/
theorem restore_save {s t u : Stack} {matched : Bool} (hs : s.save = .ok t)
    (ht : t.restore = .ok (matched, u)) :
    matched = true ∧ u.base = s.base ∧ u.nested = s.nested := by
  simp only [save, bind, Except.bind, pure, Except.pure] at hs
  split at hs
  · cases hs
  split at hs
  · cases hs
  cases hs
  simp only [restore, bind, Except.bind, pure, Except.pure] at ht
  split at ht
  · cases ht
  cases ht
  exact ⟨rfl, rfl, rfl⟩

end Stack

end PlantGrowth
