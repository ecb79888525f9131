import PlantGrowth.Site
import PlantGrowth.Params
import PlantGrowth.Journal
import PlantGrowth.Grammar.Letter
import PlantGrowth.Turtle.Stack

/-!
# Steps of the turtle

Reading a letter either edits the turtle's stack or grows a node at the top frame and
steps onto its exit. New nodes get the next identity; a saved frame raises the age of
the plant to its depth. `read` is one step, `readText` the steps of a text, with the
nodes made on the way.
-/

namespace PlantGrowth

/-- Site with what belongs to a plant under construction. -/
structure Nursery (σ : Type) where
  site : Site σ
  /-- The greatest depth so far, and at least one. -/
  age : UInt32
  /-- Identity of the next node. -/
  nextId : UInt32
  journal : Journal := #[]

/-- Construction step that may stop with a fault. -/
abbrev Build (σ : Type) := EStateM Fault (Nursery σ)

namespace Build

variable {σ : Type}

/-- A computation on the site of the nursery. -/
def onSite {α : Type} (x : OnSite σ α) : Build σ α := fun n =>
  match x n.site with
  | .ok a site => .ok a { n with site }
  | .error e site => .error e { n with site }

/-- The value of a computation without effects. -/
def check {α : Type} (x : Except Fault α) : Build σ α := fun n =>
  match x with
  | .ok a => .ok a n
  | .error e => .error e n

/-- An event for the journal. -/
def note (e : Event) : Build σ Unit := fun n =>
  .ok () { n with journal := n.journal.push e }

/-- An identity that no node had before. -/
def freshId : Build σ UInt32 := fun n =>
  match addWord n.nextId 1 with
  | .ok next => .ok n.nextId { n with nextId := next }
  | .error e => .error e n

/-- The age raised to a depth. -/
def raiseAge (depth : UInt32) : Build σ Unit := fun n =>
  .ok () { n with age := max n.age depth }

end Build

namespace Turtle

variable {σ : Type} [RandomSource σ]

/-- Depth of a frame relative to the age of the plant, or to one where the age is zero. -/
def relativeDepth (age depth : UInt32) : Scalar := depth.toFloat32 / (max age 1).toFloat32

/-- Greatest random turn in degrees of a branch: in proportion to its relative depth, but
not below the least one. -/
def wander (params : GrowthParams) (age depth : UInt32) : Scalar :=
  Scalar.maxNum (params.branchJitter * relativeDepth age depth) params.minBranchJitter

/-- A random turn and a random branch for a frame. -/
def sproutBranch (params : GrowthParams) (age : UInt32) (frame : Frame) (source : σ) :
    Except Fault ((Scalar × Branch) × σ) := do
  let (turn, source) ← RandomSource.spread (wander params age frame.depth) source
  let (factor, source) ← RandomSource.range params.lengthJitter.1 params.lengthJitter.2 source
  let (leaf, source) ← params.palette.leafColour source
  let branch := Branch.sprout (params.length * factor) params.palette.branchColour leaf
  return ((frame.rotation + Scalar.toRadians turn, branch), source)

/-- Rotation and kind of the node that an action grows on a frame. -/
def shape (params : GrowthParams) (age : UInt32) (frame : Frame) (action : Action)
    (source : σ) : Except Fault ((Scalar × Kind) × σ) :=
  match action with
  | .bud => do
    let (colour, source) ← params.palette.leafColour source
    return ((frame.rotation, .bud colour), source)
  | .branch => do
    let ((rotation, branch), source) ← sproutBranch params age frame source
    return ((rotation, .branch branch), source)
  | _ => return ((frame.rotation, .placeholder), source)

/-- A node grown on the top frame, and the stack with its exit on top. -/
def growNode (params : GrowthParams) (letter : Letter) (stack : Stack) :
    Build σ (Node × Stack) := do
  let frame := stack.top
  let id ← Build.freshId
  -- the age counts the brackets read so far, not those to come
  let age := (← get).age
  let (rotation, kind) ← Build.onSite (.draw (shape params age frame letter.action))
  let node ← Build.onSite
    (.attach id letter.char frame.joint rotation frame.depth letter.hasRule kind)
  return (node, stack.setTop ⟨node.exit, 0, node.depth⟩)

/-- One step of the turtle: the node it grows, if it grows one, and the stack after
the step. -/
def read (params : GrowthParams) (letter : Letter) (stack : Stack) :
    Build σ (Option Node × Stack) := do
  match letter.action with
  | .turnLeft => return (none, stack.turn (Scalar.toRadians params.angle))
  | .turnRight => return (none, stack.turn (-Scalar.toRadians params.angle))
  | .save =>
    let stack ← Build.check stack.save
    Build.raiseAge stack.top.depth
    return (none, stack)
  | .restore =>
    let (matched, stack) ← Build.check stack.restore
    if !matched then Build.note (.strayBracket letter.char)
    return (none, stack)
  | .bud | .branch | .placeholder =>
    let (node, stack) ← growNode params letter stack
    return (some node, stack)

/-- Node made while reading a text, and whether no bracket of the text was open. -/
structure Made where
  node : Node
  outer : Bool

/-- The steps of a text: the nodes made, in order, and the stack at the end. -/
def readText (params : GrowthParams) : List Letter → Stack → Build σ (List Made × Stack)
  | [], stack => return ([], stack)
  | letter :: rest, stack => do
    let (node?, stack) ← read params letter stack
    let outer := stack.isOuter
    let (made, stack) ← readText params rest stack
    match node? with
    | some node => return (⟨node, outer⟩ :: made, stack)
    | none => return (made, stack)

end Turtle

end PlantGrowth
