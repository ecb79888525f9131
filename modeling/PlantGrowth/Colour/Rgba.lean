import PlantGrowth.Scalar

/-!
# Colours

Colours are drawn with four channels in `[0, 1]` and chosen by hue, saturation,
brightness and opacity: the hue in degrees round the colour circle, the others from 0
to 100. `Rgba.ofHsb` converts; it accepts every number and clamps all but the hue.
-/

namespace PlantGrowth

/-- Red, green, blue and opacity, each in `[0, 1]`. -/
structure Rgba where
  r : Scalar
  g : Scalar
  b : Scalar
  a : Scalar
  deriving BEq, Inhabited

namespace Rgba

/-- Channel in `[0, 1]` of a percentage. -/
def channel (percent : Scalar) : Scalar := Scalar.clamp 0 1 (percent / 100)

/-- Red, green and blue of a hue in sixths of the circle. `strong` belongs to the
nearest primary colour, `weak` to the next one, and the third channel is empty. -/
def sector (sixths strong weak : Scalar) : Scalar × Scalar × Scalar :=
  match sixths.toUInt32.toNat with
  | 0 => (strong, weak, 0)
  | 1 => (weak, strong, 0)
  | 2 => (0, strong, weak)
  | 3 => (0, weak, strong)
  | 4 => (weak, 0, strong)
  | _ => (strong, 0, weak)

/-- Colour of a hue in degrees and of saturation, brightness and opacity in percent. -/
def ofHsb (hue saturation brightness opacity : Scalar) : Rgba :=
  let sixths := Scalar.wrap hue 360 / 60
  let s := channel saturation
  let v := channel brightness
  let strong := v * s
  let weak := strong * (1 - (Scalar.rem sixths 2 - 1).abs)
  let base := v - strong
  let (r, g, b) := sector sixths strong weak
  ⟨r + base, g + base, b + base, channel opacity⟩

end Rgba

end PlantGrowth
