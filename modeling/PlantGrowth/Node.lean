import PlantGrowth.Skeleton
import PlantGrowth.Colour.Rgba

/-!
# Nodes

A node is one occurrence of a letter in a plant. It starts at a joint that it shares
with others (`entry`) and ends at one of its own (`exit`). Three kinds of node exist:
placeholders, buds and branches; only branches have a length, and only they hold back
what grows behind them.

`Node.carry` is the exit joint as a function of the entry joint. `Branch.grow_grown`
says that a branch at its final length stays as it is.
-/

namespace PlantGrowth

/-- Branch segment on its way to its final length. -/
structure Branch where
  finalLength : Scalar
  currentLength : Scalar
  colour : Rgba
  /-- Colour of the leaf at the end of the growing branch. -/
  leafColour : Rgba
  deriving BEq

namespace Branch

/-- Branch that has not grown yet. -/
def sprout (finalLength : Scalar) (colour leafColour : Rgba) : Branch :=
  ⟨finalLength, 0, colour, leafColour⟩

/-- Whether the branch has reached its final length. -/
def isGrown (b : Branch) : Bool := b.finalLength ≤ b.currentLength

/-- The branch extended by an increment, at most to its final length. -/
def grow (b : Branch) (increment : Scalar) : Branch :=
  if b.isGrown then b
  else
    let longer := b.currentLength + Scalar.maxNum increment 0
    { b with currentLength := Scalar.minNum longer b.finalLength }

theorem grow_grown {b : Branch} (h : b.isGrown = true) (increment : Scalar) :
    b.grow increment = b := by
  simp [grow, h]

@[simp] theorem finalLength_grow (b : Branch) (increment : Scalar) :
    (b.grow increment).finalLength = b.finalLength := by
  unfold grow
  split <;> rfl

end Branch

/-- What a node is. -/
inductive Kind where
  | placeholder
  | bud (colour : Rgba)
  | branch (b : Branch)
  deriving BEq

/-- The exit joint of a node of this kind, turned by `rotation` radians against its
entry. A branch goes forward by its length and lets growth pass once it is grown. -/
def Kind.carry (kind : Kind) (rotation : Scalar) (entry : Joint) : Joint :=
  let heading := entry.heading.turnBy rotation
  match kind with
  | .branch b =>
    { position := entry.position + heading.scale b.currentLength
      heading
      ready := entry.ready && b.isGrown
      extending := entry.ready && !b.isGrown }
  | .placeholder | .bud _ => { entry with heading }

/-- One occurrence of a letter in a plant. -/
structure Node where
  id : UInt32
  letter : Char
  /-- Shared joint at which the node starts. -/
  entry : JointId
  /-- Joint at which the node ends. -/
  exit : JointId
  /-- Turn in radians against the heading of the entry. -/
  rotation : Scalar
  /-- Number of brackets around the letter when the node was made. -/
  depth : UInt32
  /-- Whether the next generation replaces the node. -/
  hasRule : Bool
  kind : Kind
  deriving BEq

namespace Node

/-- The exit joint that belongs to an entry joint. -/
def carry (n : Node) (entry : Joint) : Joint := n.kind.carry n.rotation entry

/-- The branch, if the node is one. -/
def branch? (n : Node) : Option Branch :=
  match n.kind with
  | .branch b => some b
  | .placeholder | .bud _ => none

/-- The node with its branch, if it is one, changed. -/
def mapBranch (f : Branch → Branch) (n : Node) : Node :=
  match n.kind with
  | .branch b => { n with kind := .branch (f b) }
  | .placeholder | .bud _ => n

end Node

end PlantGrowth
