import PlantGrowth.Expansion
import PlantGrowth.Compaction
import PlantGrowth.Growth

/-!
# Plants

A plant is a row of nodes on a skeleton together with its grammar and its parameters.
`Plant.sprout` makes one from a single letter, `Plant.generate` takes it to its next
generation, and `Plant.tick` grows it by one frame. The random source and the journal
belong to the surroundings and are handed through.
-/

namespace PlantGrowth

/-- What a plant uses and does not own. -/
structure Surroundings (σ : Type) where
  source : σ
  journal : Journal := #[]

/-- Computation in the surroundings of a plant. -/
abbrev Garden (σ : Type) := EStateM Fault (Surroundings σ)

/-- A growing plant. -/
structure Plant where
  params : GrowthParams
  grammar : Grammar
  nodes : List Node
  skeleton : Skeleton
  /-- The greatest depth so far, and at least one. -/
  age : UInt32
  /-- Number of generations so far. -/
  generation : UInt32
  /-- Identity of the next node. -/
  nextId : UInt32

namespace Garden

variable {σ : Type}

/-- A construction, started on a skeleton with an age and a first identity. The
result comes with the nursery as it is at the end. -/
def build {α : Type} (skeleton : Skeleton) (age nextId : UInt32) (x : Build σ α) :
    Garden σ (α × Nursery σ) := fun s =>
  match x ⟨⟨skeleton, s.source⟩, age, nextId, s.journal⟩ with
  | .ok a ⟨site, age, nextId, journal⟩ =>
    let source := site.source
    .ok (a, ⟨site, age, nextId, #[]⟩) ⟨source, journal⟩
  | .error e n => .error e ⟨n.site.source, n.journal⟩

/-- A computation on a skeleton; the result comes with the skeleton at the end. -/
def onSkeleton {α : Type} (skeleton : Skeleton) (x : OnSite σ α) : Garden σ (α × Skeleton) :=
  fun s =>
  match x ⟨skeleton, s.source⟩ with
  | .ok a site => .ok (a, site.skeleton) { s with source := site.source }
  | .error e site => .error e { s with source := site.source }

/-- The value of a computation without effects. -/
def check {α : Type} (x : Except Fault α) : Garden σ α := fun s =>
  match x with
  | .ok a => .ok a s
  | .error e => .error e s

/-- An event for the journal. -/
def note (e : Event) : Garden σ Unit := fun s =>
  .ok () { s with journal := s.journal.push e }

end Garden

namespace Plant

variable {σ : Type} [RandomSource σ]

/-- The first node of a plant. A letter that makes no node gives a placeholder. -/
def seed (grammar : Grammar) (params : GrowthParams) (letter : Char) (root : JointId) :
    Build σ Node := do
  let frame : Frame := ⟨root, 0, 0⟩
  let (node?, _) ← Turtle.read params (Grammar.letter grammar letter) (.ofFrame frame)
  match node? with
  | some node => return node
  | none =>
    Build.note (.inertSeed letter)
    let id ← Build.freshId
    Build.onSite (.attach id letter root 0 0 (grammar.contains letter) .placeholder)

/-- The plant that has only its first node. -/
def sprout (letter : Char) (rules : Rules String) (params : GrowthParams) (origin : Vec) :
    Garden σ Plant := do
  let grammar := Grammar.ofRules rules
  let root := Skeleton.empty.nextId
  let ground := Skeleton.empty.push (.root origin)
  let (node, nursery) ← Garden.build ground 1 0 (seed grammar params letter root)
  Garden.note (.created letter grammar.size origin)
  return {
    params, grammar
    nodes := [node]
    skeleton := nursery.site.skeleton
    age := nursery.age
    generation := 0
    nextId := nursery.nextId }

/-- The plant in its next generation, and what happened in it. -/
def generate (p : Plant) : Garden σ (Plant × Tally) := do
  let { params, grammar, nodes, skeleton, age, generation, nextId } := p
  let (next, nursery) ← Garden.build skeleton age nextId
    (Expansion.replaceAll grammar params nodes)
  let compacted ← Garden.check (nursery.site.skeleton.compact next.nodes)
  let generation ← Garden.check (addWord generation 1)
  let tally := next.tally
  Garden.note (.generation generation compacted.nodes.length nursery.age tally.replaced
    tally.bridged compacted.freed)
  return ({
    params, grammar, generation
    nodes := compacted.nodes
    skeleton := compacted.skeleton
    age := nursery.age
    nextId := nursery.nextId }, tally)

/-- The plant after one frame, and what is drawn. -/
def tick (p : Plant) (time : Scalar) (noise : Noise) : Garden σ (Plant × List Mark) := do
  let { params, grammar, nodes, skeleton, age, generation, nextId } := p
  let ((nodes, marks), skeleton) ← Garden.onSkeleton skeleton
    (OnSite.growAll ⟨params, age, time, noise⟩ nodes)
  return ({ params, grammar, nodes, skeleton, age, generation, nextId }, marks)

/-- Branches of the plant, in order. -/
def branches (p : Plant) : List Branch := p.nodes.filterMap Node.branch?

/-- Whether every branch has reached its final length. -/
def isFullyGrown (p : Plant) : Bool :=
  p.nodes.all fun n => match n.branch? with
    | some b => b.isGrown
    | none => true

/-- Letters of the nodes, in order. -/
def word (p : Plant) : String := .ofList (p.nodes.map (·.letter))

end Plant

end PlantGrowth
