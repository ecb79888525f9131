import PlantGrowth.Settings.Basic
import PlantGrowth.Plant
import PlantGrowth.Text.Blank

/-!
# Species

A species pairs a grammar with the numbers that give its plants their look.
`Species.raise` checks a species and the settings, sprouts a plant and takes it
through its generations. Plants of one species differ by a variation.
-/

namespace PlantGrowth

/-- Offsets of one plant against its species. -/
structure Variation where
  /-- Degrees added to the angle. -/
  angle : Scalar := 0
  /-- Added to the length of branches. -/
  length : Scalar := 0
  /-- Degrees added to the hue of the leaves. -/
  hue : Scalar := 0

/-- Kind of plant. -/
structure Species where
  name : String
  /-- First letter of every plant. -/
  seed : Char
  rules : Rules String
  /-- Length of a branch before jitter. -/
  length : Scalar := 5
  /-- Degrees of one turn of the turtle. -/
  angle : Scalar := 25
  /-- Diameter of leaves and buds. -/
  leafSize : Scalar := 2
  /-- Generations before growth starts. -/
  iterations : UInt32 := 4
  /-- Factor on the stroke width of the settings. -/
  branchWidthScale : Scalar := 1
  /-- Offset of the leaf colours. -/
  colourShift : Option ColourShift := none
  /-- Factor on the growth speed of the settings. -/
  growthSpeedMult : Option Scalar := none

namespace Species

/-- The numbers that must be positive, with the names of their fields. -/
def positives (s : Species) : List (String × Scalar) :=
  [("length", s.length), ("angle", s.angle), ("leaf_size", s.leafSize),
    ("branch_width_scale", s.branchWidthScale), ("growth_speed_mult", s.growthSpeedMult.getD 1)]

/-- The first letter whose rule has no text to choose. -/
def emptyRule? (s : Species) : Option Char :=
  (s.rules.entries.find? fun r => r.2.texts.isEmpty).map (·.1)

/-- Refuses a species with a value out of order. -/
def validate (s : Species) : Except ConfigError Unit := do
  if Text.isBlank s.seed then throw (.blankSeed s.name)
  -- negated, so that what is no number is refused as well
  if let some (field, value) := s.positives.find? fun p => !(0 < p.2) then
    throw (.nonPositive s.name field value)
  if s.iterations = 0 then throw (.noIterations s.name)
  if let some letter := s.emptyRule? then throw (.emptyRule s.name letter)

/-- Growth parameters of one plant. -/
def params (s : Species) (settings : Settings) (v : Variation) : GrowthParams where
  angle := s.angle + v.angle
  length := s.length + v.length
  leafSize := s.leafSize
  growthSpeed := settings.growthSpeed * s.growthSpeedMult.getD 1
  growthJitter := settings.growthJitter
  lengthJitter := settings.lengthJitter
  branchJitter := settings.branchJitter
  minBranchJitter := settings.minBranchJitter
  branchWidth := settings.branchWidth * s.branchWidthScale
  palette :=
    let shift := s.colourShift.getD {}
    { shift := { shift with hue := shift.hue + v.hue } }
  flowField := settings.flowField

/-- Number of generations; the settings decide if they give one. -/
def generations (s : Species) (settings : Settings) : UInt32 :=
  settings.iterations.getD s.iterations

variable {σ : Type} [RandomSource σ]

/-- The plant after `count` further generations. -/
def generateTimes (s : Species) : Nat → Plant → Garden σ Plant
  | 0, plant => return plant
  | count + 1, plant => do
    let (plant, tally) ← plant.generate
    if !tally.balanced then
      Garden.note (.unbalanced s.name plant.generation tally.strays tally.unclosed)
    generateTimes s count plant

/-- A plant of the species at a place, after all its generations; a species or
settings out of order are refused. -/
def raise (s : Species) (settings : Settings) (origin : Vec) (v : Variation) :
    Garden σ (Except ConfigError Plant) := do
  match s.validate >>= fun _ => settings.validate with
  | .error e => return .error e
  | .ok () =>
    let seedling ← Plant.sprout s.seed s.rules (s.params settings v) origin
    let count := s.generations settings
    let plant ← s.generateTimes count.toNat seedling
    Garden.note (.raised s.name count plant.nodes.length plant.age)
    return .ok plant

end Species

end PlantGrowth
