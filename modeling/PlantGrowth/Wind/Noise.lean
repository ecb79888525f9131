import PlantGrowth.Scalar
import PlantGrowth.Fault

/-!
# Coherent noise

A noise field gives a number in `[0, 1]` for every place and time. `Lattice` is the
seeded value noise: pseudo-random values at the integer points, blended smoothly in
between. A lattice cell is addressed by its lower corner in 32-bit integers, so the
field has no value where the opposite corner is out of their range.
-/

namespace PlantGrowth

/-- Scalar field over two axes of space and one of time. -/
abbrev Noise := Scalar → Scalar → Scalar → Except Fault Scalar

namespace Noise

/-- Field of one value. -/
def constant (c : Scalar) : Noise := fun _ _ _ => .ok c

/-- Field that is linear in each axis. -/
def linear (a b c d : Scalar) : Noise := fun x y t => .ok (a * x + b * y + c * t + d)

end Noise

/-- Seeded value noise. -/
structure Lattice where
  seed : UInt32

namespace Lattice

/-- Lattice of a 64-bit seed, whose halves are combined. -/
def ofSeed (seed : UInt64) : Lattice := ⟨(seed ^^^ (seed >>> 32)).toUInt32⟩

/-- Value in `[0, 1]` at a lattice point: the low 24 bits of a mixed word. -/
def value (l : Lattice) (x y t : Int32) : Scalar :=
  let h := l.seed ^^^ (x.toUInt32 * 0x8da6b343) ^^^ (y.toUInt32 * 0xd8163841) ^^^
    (t.toUInt32 * 0xcb1ab31f)
  -- the high bits are folded down before each product and once more at the end
  let h := (h ^^^ (h >>> 15)) * 2654435761
  let h := h ^^^ (h >>> 13)
  let h := h * 0x85ebca6b
  let h := h ^^^ (h >>> 16)
  (h &&& 0x00ffffff).toFloat32 / (0x00ffffff : UInt32).toFloat32

/-- Parameter with zero slope at both ends of `[0, 1]`. -/
def smoothstep (t : Scalar) : Scalar := t * t * (3 - 2 * t)

/-- Blend of the four corners of a cell's face at one time. -/
def face (l : Lattice) (x y t : Int32) (fx fy : Scalar) : Scalar :=
  Scalar.lerp
    (Scalar.lerp (l.value x y t) (l.value (x + 1) y t) fx)
    (Scalar.lerp (l.value x (y + 1) t) (l.value (x + 1) (y + 1) t) fx)
    fy

/-- Blend of the eight corners of the cell that holds a point. -/
def sample (l : Lattice) : Noise := fun x y t =>
  let x0 := Scalar.floor x
  let y0 := Scalar.floor y
  let t0 := Scalar.floor t
  let fx := smoothstep (x - x0)
  let fy := smoothstep (y - y0)
  let ft := smoothstep (t - t0)
  let ix := Scalar.toInt32 x0
  let iy := Scalar.toInt32 y0
  let it := Scalar.toInt32 t0
  -- the opposite corner is one further along every axis
  if ix = Int32.maxValue || iy = Int32.maxValue || it = Int32.maxValue then
    .error .addOverflow
  else
    .ok (Scalar.clamp 0 1 (Scalar.lerp (l.face ix iy it fx fy) (l.face ix iy (it + 1) fx fy) ft))

end Lattice

end PlantGrowth
