import PlantGrowth.Growth

/-!
# Triangles of a frame

The marks of a frame become coloured triangles: a branch two, as wide as its stroke,
and a leaf or bud a fan of triangles round its centre.

`length_fan` counts the vertices of a fan.
-/

namespace PlantGrowth

/-- Corner of a triangle. -/
structure Vertex where
  position : Vec
  colour : Rgba

namespace Vertex

/-- The four bytes of a number, the lowest first. -/
def scalarBytes (x : Scalar) : List UInt8 :=
  let b := x.toBits
  [b.toUInt8, (b >>> 8).toUInt8, (b >>> 16).toUInt8, (b >>> 24).toUInt8]

/-- The vertex as laid out in a vertex buffer: position, then colour. -/
def bytes (v : Vertex) : List UInt8 :=
  [v.position.x, v.position.y, v.colour.r, v.colour.g, v.colour.b, v.colour.a].flatMap
    scalarBytes

/-- Number of bytes of a vertex. -/
def stride : Nat := 24

end Vertex

namespace Mesh

/-- Two triangles along a stroke. A stroke without a direction has none. -/
def segment (start finish : Vec) (width : Scalar) (colour : Rgba) : List Vertex :=
  let direction := (finish - start).normalized
  if direction == .zero then []
  else
    -- half the stroke, at a right angle to its direction
    let side := Vec.scale ⟨-direction.y, direction.x⟩ (width / 2)
    let a := start + side
    let b := start - side
    let c := finish + side
    let d := finish - side
    [a, b, c, c, b, d].map (⟨·, colour⟩)

/-- Point of a circle after `i` of `segments` equal steps. -/
def rim (centre : Vec) (radius : Scalar) (i segments : UInt32) : Vec :=
  let theta := i.toFloat32 / segments.toFloat32 * 2 * Scalar.pi
  ⟨centre.x + radius * theta.cos, centre.y + radius * theta.sin⟩

/-- One triangle of a fan: the centre and two neighbouring points of the circle. -/
def slice (centre : Vec) (radius : Scalar) (colour : Rgba) (segments i : UInt32) :
    List Vertex :=
  [⟨centre, colour⟩, ⟨rim centre radius i segments, colour⟩,
    ⟨rim centre radius (i + 1) segments, colour⟩]

/-- Triangles that fill a circle. -/
def fan (centre : Vec) (radius : Scalar) (colour : Rgba) (segments : UInt32) : List Vertex :=
  (List.range segments.toNat).flatMap fun i => slice centre radius colour segments (.ofNat i)

/-- Triangles that fill a circle, after a check that their vertices can be counted in a
word. -/
def circle (centre : Vec) (radius : Scalar) (colour : Rgba) (segments : UInt32) :
    Except Fault (List Vertex) := do
  let _ ← mulWord segments 3
  return fan centre radius colour segments

/-- Number of triangles of a leaf or bud. -/
def dotSegments : UInt32 := 12

/-- Triangles of a leaf or bud. -/
def ofDot (d : Dot) : List Vertex := fan d.centre d.radius d.colour dotSegments

/-- Triangles of a mark. The leaf of a branch comes after it and so lies above it. -/
def ofMark : Mark → List Vertex
  | .segment start finish width colour leaf =>
    segment start finish width colour ++ (leaf.map ofDot).getD []
  | .dot d => ofDot d

/-- Triangles of the marks of a frame, in the order of drawing. -/
def ofMarks (marks : List Mark) : List Vertex := marks.flatMap ofMark

/-- A row of triangles has three vertices for each. -/
theorem length_row {triangle : Nat → List Vertex} (h : ∀ i, (triangle i).length = 3) (n : Nat) :
    ((List.range n).flatMap triangle).length = 3 * n := by
  rw [List.length_flatMap, List.map_congr_left fun i _ => h i, List.map_const',
    List.sum_replicate_nat, List.length_range, Nat.mul_comm]

/-- A fan has one triangle for each of its segments. -/
theorem length_fan (centre : Vec) (radius : Scalar) (colour : Rgba) (segments : UInt32) :
    (fan centre radius colour segments).length = 3 * segments.toNat :=
  length_row (fun _ => rfl) _

end Mesh

end PlantGrowth
