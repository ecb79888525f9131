import PlantGrowth.Site
import PlantGrowth.Params

/-!
# Growth of one frame

In every frame each node looks at its entry joint, grows if it is a branch that may
grow, moves its exit joint and reports what is to be drawn. What a node does depends
on its entry joint alone (`Node.grow`); `OnSite.growNode` reads that joint and writes
the exit, and `OnSite.growAll` does so for the nodes of a plant in order, so that
every joint is written before the nodes behind it read it.
-/

namespace PlantGrowth

/-- Filled circle. -/
structure Dot where
  centre : Vec
  radius : Scalar
  colour : Rgba

/-- Visible element of a frame. -/
inductive Mark where
  /-- Branch, with a leaf at its end while it grows. -/
  | segment (start finish : Vec) (width : Scalar) (colour : Rgba) (leaf : Option Dot)
  /-- Bud. -/
  | dot (d : Dot)

/-- What all nodes of a plant share in one frame. -/
structure Moment where
  params : GrowthParams
  /-- Age of the plant. -/
  age : UInt32
  /-- Milliseconds on the clock of the animation. -/
  time : Scalar
  noise : Noise

/-- Stroke width of a branch relative to the tips: it falls linearly from the trunk,
at depth one, to depth `age`. -/
def taper (depth age : UInt32) : Scalar :=
  let age : Scalar := age.toFloat32
  Scalar.remap depth.toFloat32 1 age (Scalar.maxNum (0.7 * age) 1) 1

/-- What a node does in a frame. -/
structure Grown where
  node : Node
  exit : Joint
  mark : Option Mark

namespace Branch

variable {σ : Type} [RandomSource σ]

/-- The branch after a frame. Only a branch that growth has reached and that is not
grown draws an increment. -/
def advance (m : Moment) (entry : Joint) (b : Branch) (source : σ) :
    Except Fault (Branch × σ) :=
  if entry.ready && !b.isGrown then do
    let (lo, hi) := m.params.growthJitter
    let (factor, source) ← RandomSource.range lo hi source
    return (b.grow (m.params.growthSpeed * factor), source)
  else .ok (b, source)

/-- The exit joint turned by the flow field about the entry of its branch. -/
def sway (m : Moment) (depth : UInt32) (entry exit : Joint) (length : Scalar) :
    Except Fault Joint :=
  match m.params.flowField with
  | none => .ok exit
  | some flow => do
    let angle ← flow.deflection exit.position m.time m.age depth m.noise
    let heading := exit.heading.turnBy angle
    return { exit with heading, position := entry.position + heading.scale length }

end Branch

namespace Node

variable {σ : Type} [RandomSource σ]

/-- A branch in a frame. It is drawn once growth has reached it. -/
def growBranch (m : Moment) (n : Node) (before : Branch) (entry : Joint) (source : σ) :
    Except Fault (Grown × σ) := do
  let (b, source) ← before.advance m entry source
  let n := { n with kind := .branch b }
  -- where the branch would end in still air
  let still := n.carry entry
  if !entry.ready then return (⟨n, still, none⟩, source)
  let exit ← Branch.sway m n.depth entry still b.currentLength
  -- the leaf is shown up to the frame in which the branch is done
  let leaf : Option Dot :=
    if before.isGrown then none
    else some ⟨exit.position, m.params.leafSize / 2, b.leafColour⟩
  let width := m.params.branchWidth * taper n.depth m.age
  return (⟨n, exit, some (.segment entry.position exit.position width b.colour leaf)⟩, source)

/-- A node in a frame. A bud is drawn once the branch before it has started. -/
def grow (m : Moment) (n : Node) (entry : Joint) (source : σ) : Except Fault (Grown × σ) :=
  match n.kind with
  | .placeholder => .ok (⟨n, n.carry entry, none⟩, source)
  | .bud colour =>
    let reached := entry.extending || entry.ready
    let dot : Dot := ⟨entry.position, m.params.leafSize / 2, colour⟩
    .ok (⟨n, n.carry entry, if reached then some (.dot dot) else none⟩, source)
  | .branch b => n.growBranch m b entry source

end Node

namespace OnSite

variable {σ : Type} [RandomSource σ]

/-- A frame of one node: the node afterwards and what is drawn of it. -/
def growNode (m : Moment) (n : Node) : OnSite σ (Node × Option Mark) := do
  let entry ← joint n.entry
  let grown ← draw (n.grow m entry)
  setJoint n.exit grown.exit
  return (grown.node, grown.mark)

/-- A frame of a row of nodes: the nodes afterwards and the marks in their order. -/
def growAll (m : Moment) (nodes : List Node) : OnSite σ (List Node × List Mark) := do
  let grown ← nodes.mapM (growNode m)
  return (grown.map (·.1), grown.filterMap (·.2))

end OnSite

end PlantGrowth
