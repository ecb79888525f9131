import PlantGrowth.Vec
import PlantGrowth.Wind.Noise

/-!
# Sway of branches in a flow field

A flow field turns a branch by an angle sampled from noise at its end. Branches near
the tips, whose depth is close to the plant's age, sway through the full range;
each level towards the trunk takes `changeStep` degrees off it, down to a floor.
Both bounds shrink with the age of the plant.
-/

namespace PlantGrowth

/-- Noise-driven turning of branches. Angles are in degrees. -/
structure FlowField where
  /-- Degrees taken off the range per level below the tips. -/
  changeStep : Scalar := 5
  /-- Lower bound of the range, before the division by the age. -/
  minChange : Scalar := 10
  /-- Upper bound of the range, before the division by the age. -/
  maxChange : Scalar := 100
  /-- Length of one noise unit along the first axis. -/
  xScale : Scalar := 50
  /-- Length of one noise unit along the second axis. -/
  yScale : Scalar := 50
  /-- Milliseconds of one noise unit. -/
  zScale : Scalar := 2000
  deriving BEq, Inhabited

namespace FlowField

/-- Greatest turn in degrees of a branch of depth `depth` in a plant of age `age`. -/
def angleRange (f : FlowField) (age depth : UInt32) : Scalar :=
  let levels : Scalar := (max age 1).toFloat32
  let belowTips := levels - depth.toFloat32
  Scalar.maxNum (f.minChange / levels) (f.maxChange / levels - f.changeStep * belowTips)

/-- Turn in radians of a branch that ends at `place`, at `time` milliseconds. -/
def deflection (f : FlowField) (place : Vec) (time : Scalar) (age depth : UInt32)
    (noise : Noise) : Except Fault Scalar := do
  let range := f.angleRange age depth
  let n ← noise (place.x / f.xScale) (place.y / f.yScale) (time / f.zScale)
  return Scalar.toRadians (Scalar.remap n 0 1 (-range) range)

/-- Whether no scale is zero and the bounds are ordered and not negative. -/
def isValid (f : FlowField) : Bool :=
  f.xScale != 0 && f.yScale != 0 && f.zScale != 0 && 0 ≤ f.minChange &&
    f.minChange ≤ f.maxChange

end FlowField

end PlantGrowth
