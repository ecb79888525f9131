import PlantGrowth.Colour.Palette
import PlantGrowth.Wind.FlowField

/-!
# Growth parameters

The numbers that give one plant its look and its pace.
-/

namespace PlantGrowth

/-- Parameters of one plant. Jitter pairs are the lower and upper factor. -/
structure GrowthParams where
  /-- Degrees of one turn of the turtle. -/
  angle : Scalar := 25
  /-- Length of a branch before jitter. -/
  length : Scalar := 5
  /-- Diameter of leaves and buds. -/
  leafSize : Scalar := 2
  /-- Growth of a branch per frame before jitter. -/
  growthSpeed : Scalar := 0.1
  growthJitter : Scalar × Scalar := (0.8, 1.2)
  lengthJitter : Scalar × Scalar := (0.8, 1.2)
  /-- Random turn in degrees of a branch at the greatest depth. -/
  branchJitter : Scalar := 5
  /-- Least random turn in degrees. -/
  minBranchJitter : Scalar := 1
  /-- Stroke width of the tips. -/
  branchWidth : Scalar := 0.6
  palette : Palette := {}
  /-- Sway of the branches, if there is any. -/
  flowField : Option FlowField := none
  deriving BEq, Inhabited

end PlantGrowth
