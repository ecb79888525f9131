import PlantGrowth.Node
import PlantGrowth.Chance.Source

/-!
# Growing site

A site is a skeleton together with a random source. Computations on a site read and
replace joints and draw samples; a handle of no joint stops them. `OnSite.refresh`
brings a node's exit joint in line with its entry joint, `OnSite.relink` gives a node
another exit joint.
-/

namespace PlantGrowth

/-- Skeleton and random source. -/
structure Site (σ : Type) where
  skeleton : Skeleton
  source : σ

/-- Computation on a site that may stop with a fault. -/
abbrev OnSite (σ : Type) := EStateM Fault (Site σ)

namespace OnSite

variable {σ : Type}

/-- Joint of a handle. -/
def joint (id : JointId) : OnSite σ Joint := fun s =>
  match s.skeleton.get? id with
  | some j => .ok j s
  | none => .error (.outOfBounds s.skeleton.size id.index) s

/-- Replacement of a joint. -/
def setJoint (id : JointId) (j : Joint) : OnSite σ Unit := fun s =>
  if id.index < s.skeleton.size then .ok () ⟨s.skeleton.put id j, s.source⟩
  else .error (.outOfBounds s.skeleton.size id.index) s

/-- A new joint. -/
def addJoint (j : Joint) : OnSite σ JointId := fun s =>
  .ok s.skeleton.nextId ⟨s.skeleton.push j, s.source⟩

/-- A sample from the source. -/
def draw {α : Type} (sample : σ → Except Fault (α × σ)) : OnSite σ α := fun s =>
  match sample s.source with
  | .ok (a, source) => .ok a ⟨s.skeleton, source⟩
  | .error e => .error e s

/-- The node's exit joint, computed anew from its entry joint. -/
def refresh (n : Node) : OnSite σ Unit := do
  setJoint n.exit (n.carry (← joint n.entry))

/-- The node with another exit joint, which takes over the state of the old one, so
that whatever already starts there sees where the node ends. -/
def relink (n : Node) (target : JointId) : OnSite σ Node := do
  if target = n.exit then return n
  setJoint target (← joint n.exit)
  return { n with exit := target }

/-- A new node at a joint, with an exit joint of its own. -/
def attach (id : UInt32) (letter : Char) (entry : JointId) (rotation : Scalar)
    (depth : UInt32) (hasRule : Bool) (kind : Kind) : OnSite σ Node := do
  let exit ← addJoint (kind.carry rotation (← joint entry))
  return { id, letter, entry, exit, rotation, depth, hasRule, kind }

end OnSite

end PlantGrowth
