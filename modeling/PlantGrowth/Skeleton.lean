import PlantGrowth.Vec

/-!
# Joints and the skeleton that holds them

The nodes of a plant meet at joints: a node starts at the joint where the node
before it, or the ancestor at its branching point, ends. All joints of a plant lie
in one skeleton and are addressed by handles, so that moving a joint moves
everything attached to it.

One equation per operation says what a look-up gives afterwards (`get?_push`,
`get?_put_self`, `get?_put_of_ne`).
-/

namespace PlantGrowth

/-- Place where nodes meet. -/
structure Joint where
  position : Vec
  /-- Direction in which growth goes on from here. -/
  heading : Vec
  /-- Whether every branch on the way from the root has finished growing. -/
  ready : Bool
  /-- Whether the last branch on the way is growing now. -/
  extending : Bool
  deriving BEq

namespace Joint

/-- Joint that growth has not reached. -/
def waiting (position heading : Vec) : Joint := ⟨position, heading, false, false⟩

/-- Joint where a plant leaves the ground. -/
def root (position : Vec) : Joint := ⟨position, .up, true, false⟩

end Joint

/-- Handle of a joint. -/
structure JointId where
  word : UInt32
  deriving DecidableEq

/-- Place of the joint in its skeleton. -/
def JointId.index (id : JointId) : Nat := id.word.toNat

/-- The joints of a plant. -/
structure Skeleton where
  joints : Array Joint

namespace Skeleton

def empty : Skeleton := ⟨#[]⟩

/-- Number of joints. -/
def size (k : Skeleton) : Nat := k.joints.size

def isEmpty (k : Skeleton) : Bool := k.joints.isEmpty

/-- Joint of a handle. -/
def get? (k : Skeleton) (id : JointId) : Option Joint := k.joints[id.index]?

/-- Handle of the next joint. -/
def nextId (k : Skeleton) : JointId := ⟨.ofNat k.size⟩

/-- The skeleton with one more joint, whose handle is `nextId`. -/
def push (k : Skeleton) (j : Joint) : Skeleton := ⟨k.joints.push j⟩

/-- The skeleton with a joint replaced; a handle of no joint changes nothing. -/
def put (k : Skeleton) (id : JointId) (j : Joint) : Skeleton :=
  ⟨k.joints.setIfInBounds id.index j⟩

@[simp] theorem size_push (k : Skeleton) (j : Joint) : (k.push j).size = k.size + 1 :=
  Array.size_push ..

@[simp] theorem size_put (k : Skeleton) (id : JointId) (j : Joint) :
    (k.put id j).size = k.size :=
  Array.size_setIfInBounds

theorem get?_push (k : Skeleton) (j : Joint) (id : JointId) :
    (k.push j).get? id = if id.index = k.size then some j else k.get? id :=
  Array.getElem?_push

theorem get?_put_self {k : Skeleton} {id : JointId} (h : id.index < k.size) (j : Joint) :
    (k.put id j).get? id = some j := by
  simp only [size] at h
  simp [get?, put, h]

theorem get?_put_of_ne {k : Skeleton} {id other : JointId} (h : id ≠ other) (j : Joint) :
    (k.put id j).get? other = k.get? other := by
  -- different handles have different places
  have hi : id.index ≠ other.index := by
    intro hi
    apply h
    cases id
    cases other
    simpa [JointId.index, UInt32.toNat_inj] using hi
  simp [get?, put, Array.getElem?_setIfInBounds_ne hi]

end Skeleton

end PlantGrowth
