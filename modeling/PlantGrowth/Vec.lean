import PlantGrowth.Scalar

/-!
# Plane vectors

Positions and headings in the plane, the second axis pointing up. `turnBy` rotates
counter-clockwise; `normalized` gives the zero vector where no unit vector exists.
-/

namespace PlantGrowth

/-- Vector of the plane. -/
structure Vec where
  x : Scalar
  y : Scalar
  deriving BEq

namespace Vec

def zero : Vec := ⟨0, 0⟩

/-- Unit vector pointing up. -/
def up : Vec := ⟨0, 1⟩

instance : Add Vec := ⟨fun a b => ⟨a.x + b.x, a.y + b.y⟩⟩

instance : Sub Vec := ⟨fun a b => ⟨a.x - b.x, a.y - b.y⟩⟩

/-- The vector stretched by a factor. -/
def scale (v : Vec) (factor : Scalar) : Vec := ⟨v.x * factor, v.y * factor⟩

/-- The vector turned counter-clockwise by an angle in radians. -/
def turnBy (v : Vec) (radians : Scalar) : Vec :=
  let c := radians.cos
  let s := radians.sin
  ⟨c * v.x - s * v.y, s * v.x + c * v.y⟩

/-- The vector turned counter-clockwise by an angle in degrees. -/
def turnByDegrees (v : Vec) (degrees : Scalar) : Vec := v.turnBy (Scalar.toRadians degrees)

/-- The unit vector of the same direction; zero if the length is zero, too small or
too large to divide by, or no number. -/
def normalized (v : Vec) : Vec :=
  let r := 1 / (v.x * v.x + v.y * v.y).sqrt
  if r.isFinite && 0 < r then v.scale r else zero

end Vec

end PlantGrowth
