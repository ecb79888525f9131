import PlantGrowth.Node
import PlantGrowth.Fault

/-!
# Compaction of a skeleton

Expansion leaves joints behind that no node uses. `Skeleton.compact` keeps the joints
in use, in the order in which the nodes first mention them, and gives the nodes the
new handles.
-/

namespace PlantGrowth

/-- The part of a skeleton met so far: the new handle of every old joint that was met,
and the joints kept. -/
structure Renumbering where
  handles : Array (Option JointId)
  kept : Array Joint

namespace Renumbering

/-- Nothing met yet. -/
def start (k : Skeleton) : Renumbering := ⟨Array.replicate k.size none, #[]⟩

/-- New handle of an old one. A joint met for the first time is kept. -/
def rename (k : Skeleton) (id : JointId) : EStateM Fault Renumbering JointId := fun r =>
  match r.handles[id.index]?, k.get? id with
  | some (some new), _ => .ok new r
  -- met for the first time
  | some none, some j =>
    let new : JointId := ⟨.ofNat r.kept.size⟩
    .ok new ⟨r.handles.setIfInBounds id.index (some new), r.kept.push j⟩
  | _, _ => .error (.outOfBounds k.size id.index) r

/-- The node with both handles renamed. -/
def renameNode (k : Skeleton) (n : Node) : EStateM Fault Renumbering Node := do
  let entry ← rename k n.entry
  let exit ← rename k n.exit
  return { n with entry, exit }

end Renumbering

/-- Skeleton without unused joints. -/
structure Compacted where
  skeleton : Skeleton
  nodes : List Node
  /-- Number of joints left out. -/
  freed : Nat

/-- The skeleton reduced to the joints of the nodes, and the nodes with the handles
they have there. -/
def Skeleton.compact (k : Skeleton) (nodes : List Node) : Except Fault Compacted :=
  match nodes.mapM (Renumbering.renameNode k) (.start k) with
  | .ok nodes r => .ok ⟨⟨r.kept⟩, nodes, k.size - r.kept.size⟩
  | .error e _ => .error e

end PlantGrowth
