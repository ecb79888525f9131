import PlantGrowth.Colour.Rgba
import PlantGrowth.Chance.Source

/-!
# Palettes

A palette holds the ranges from which leaf colours are sampled and the one colour of
the branches. A plant offsets the leaf ranges by its own shift.
-/

namespace PlantGrowth

/-- Offset of the leaf colours of one plant. -/
structure ColourShift where
  /-- Degrees round the colour circle. -/
  hue : Scalar := 0
  brightness : Scalar := 0
  saturation : Scalar := 0
  alpha : Scalar := 0
  deriving BEq, Inhabited

/-- Colour ranges of one plant: hues in degrees, the rest in percent. -/
structure Palette where
  leafHue : Scalar × Scalar := (250, 310)
  leafSaturation : Scalar × Scalar := (70, 80)
  leafBrightness : Scalar × Scalar := (75, 90)
  leafAlpha : Scalar := 20
  shift : ColourShift := {}
  /-- Hue, saturation, brightness and opacity of the branches. -/
  branch : Scalar × Scalar × Scalar × Scalar := (250, 70, 30, 100)
  deriving BEq, Inhabited

namespace Palette

/-- Sampled leaf colour: one draw each for hue, saturation and brightness. -/
def leafColour {σ : Type} [RandomSource σ] (p : Palette) (source : σ) :
    Except Fault (Rgba × σ) := do
  let (turn, source) ← RandomSource.range 0 (p.leafHue.2 - p.leafHue.1) source
  let hue := Scalar.wrap (p.leafHue.1 + p.shift.hue + turn) 360
  let (saturation, source) ← RandomSource.range
    (p.leafSaturation.1 + p.shift.saturation) (p.leafSaturation.2 + p.shift.saturation) source
  let (brightness, source) ← RandomSource.range
    (p.leafBrightness.1 + p.shift.brightness) (p.leafBrightness.2 + p.shift.brightness) source
  return (.ofHsb hue saturation brightness (p.leafAlpha + p.shift.alpha), source)

/-- Colour of every branch. -/
def branchColour (p : Palette) : Rgba :=
  let (hue, saturation, brightness, opacity) := p.branch
  .ofHsb hue saturation brightness opacity

end Palette

end PlantGrowth
