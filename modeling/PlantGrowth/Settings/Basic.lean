import PlantGrowth.ConfigError
import PlantGrowth.Wind.FlowField

/-!
# Settings

Settings tune the growth of every species and drive the demonstration.
`Settings.validate` reports the first field whose value is out of order.
-/

namespace PlantGrowth

/-- Settings shared by all species. -/
structure Settings where
  /-- Seed of the random source. -/
  seed : UInt64 := 0
  /-- Growth of a branch per frame. -/
  growthSpeed : Scalar := 0.1
  growthJitter : Scalar × Scalar := (0.8, 1.2)
  lengthJitter : Scalar × Scalar := (0.8, 1.2)
  /-- Random turn in degrees of a branch at the greatest depth. -/
  branchJitter : Scalar := 5
  /-- Least random turn in degrees. -/
  minBranchJitter : Scalar := 1
  /-- Stroke width before the species scales it. -/
  branchWidth : Scalar := 0.6
  flowField : Option FlowField := some {}
  /-- Number of generations, in place of the one of the species. -/
  iterations : Option UInt32 := none
  /-- Frames of the demonstration. -/
  frames : UInt32 := 600
  /-- Milliseconds of a frame. -/
  frameTime : Scalar := 1000 / 60
  deriving BEq, Inhabited

namespace Settings

/-- Refuses a number that is not above zero. -/
def checkPositive (field : String) (value : Scalar) : Except ConfigError Unit :=
  if 0 < value then .ok () else .error (.invalidSetting field (.notPositive value))

/-- Refuses a pair that is no interval of positive numbers. -/
def checkRange (field : String) (range : Scalar × Scalar) : Except ConfigError Unit :=
  if 0 < range.1 ∧ range.1 ≤ range.2 then .ok ()
  else .error (.invalidSetting field (.notRange range.1 range.2))

/-- Refuses settings with a value out of order. -/
def validate (s : Settings) : Except ConfigError Unit := do
  checkPositive "growth_speed" s.growthSpeed
  checkRange "growth_jitter" s.growthJitter
  checkRange "length_jitter" s.lengthJitter
  if s.branchJitter < 0 ∨ s.minBranchJitter < 0 then
    throw (.invalidSetting "branch_jitter" .negative)
  checkPositive "branch_width" s.branchWidth
  if let some flow := s.flowField then
    if !flow.isValid then throw (.invalidSetting "flow_field" .invalidFlow)
  if s.iterations = some 0 then throw (.invalidSetting "iterations" .noIterations)
  checkPositive "frame_time" s.frameTime

end Settings

end PlantGrowth
