import PlantGrowth.Mesh

/-!
# Fans of triangles

The triangles of a filled circle are an unbroken fan: all of them start at the centre, and each
ends at the very vertex at which the next one opens (`Mesh.IsFan`), for every number of segments
(`Mesh.isFan_fan`). The two vertices come from two computations of the same point of the circle, at
the end of one step and at the start of the next.

A circle is built wherever its vertices can be counted in a word; with more segments than that
the count is the only thing that fails (`Mesh.circle_complete`).
-/

set_option autoImplicit false

namespace PlantGrowth.Mesh

/-- Unbroken fan of `segments` triangles of one colour round a centre. -/
structure IsFan (centre : Vec) (radius : Scalar) (colour : Rgba) (segments : UInt32)
    (vertices : List Vertex) : Prop where
  length_eq : vertices.length = 3 * segments.toNat
  colour_eq : ∀ v ∈ vertices, v.colour = colour
  /-- Every triangle starts at the centre. -/
  starts : ∀ i < segments.toNat, vertices[3 * i]? = some ⟨centre, colour⟩
  /-- The second vertex is the point of the circle that the step starts from. -/
  opens : ∀ i < segments.toNat,
    vertices[3 * i + 1]? = some ⟨rim centre radius (.ofNat i) segments, colour⟩
  /-- The third vertex is the point of the circle that the next step starts from. -/
  closes : ∀ i < segments.toNat,
    vertices[3 * i + 2]? = some ⟨rim centre radius (.ofNat (i + 1)) segments, colour⟩
  /-- The number of the next step is a word. -/
  steps : ∀ i < segments.toNat, addWord (.ofNat i) 1 = .ok (.ofNat (i + 1))
  /-- A triangle ends where the next one opens. -/
  joined : ∀ i, i + 1 < segments.toNat → vertices[3 * i + 2]? = vertices[3 * (i + 1) + 1]?

/-- Vertex `k` of triangle `i` of a row. -/
theorem getElem?_row {triangle : Nat → List Vertex} (h : ∀ i, (triangle i).length = 3)
    {n i k : Nat} (hi : i < n) (hk : k < 3) :
    ((List.range n).flatMap triangle)[3 * i + k]? = (triangle i)[k]? := by
  induction n with
  | zero => omega
  | succ n ih =>
    have hlength := length_row h n
    rw [List.range_succ, List.flatMap_append, List.flatMap_singleton]
    rcases Nat.lt_succ_iff_lt_or_eq.mp hi with hlt | rfl
    · rw [List.getElem?_append_left (by omega), ih hlt]
    · rw [List.getElem?_append_right (by omega), hlength, Nat.add_sub_cancel_left]

section Fan

variable (centre : Vec) (radius : Scalar) (colour : Rgba) (segments : UInt32)

theorem getElem?_fan {i k : Nat} (hi : i < segments.toNat) (hk : k < 3) :
    (fan centre radius colour segments)[3 * i + k]? =
      (slice centre radius colour segments (.ofNat i))[k]? :=
  getElem?_row (fun _ => rfl) hi hk

theorem colour_of_mem_fan {v : Vertex} (hv : v ∈ fan centre radius colour segments) :
    v.colour = colour := by
  obtain ⟨i, -, hv⟩ := List.mem_flatMap.mp hv
  simp only [slice, List.mem_cons, List.not_mem_nil, or_false] at hv
  rcases hv with rfl | rfl | rfl <;> rfl

/-- The number of the next step is at most the number of segments, so counting on to it never
leaves the words. -/
theorem addWord_ofNat {segments : UInt32} {i : Nat} (hi : i < segments.toNat) :
    addWord (.ofNat i) 1 = .ok (.ofNat (i + 1)) := by
  have hword : segments.toNat < UInt32.size := segments.toNat_lt
  have hnat : (UInt32.ofNat i).toNat = i := UInt32.toNat_ofNat_of_lt (by omega)
  have hfits : (UInt32.ofNat i).toNat + (1 : UInt32).toNat < UInt32.size := by
    rw [hnat]; exact Nat.lt_of_le_of_lt hi hword
  rw [addWord, if_pos hfits, UInt32.ofNat_add]
  rfl

theorem isFan_fan : IsFan centre radius colour segments (fan centre radius colour segments) where
  length_eq := length_fan centre radius colour segments
  colour_eq _ := colour_of_mem_fan centre radius colour segments
  starts i hi := getElem?_fan centre radius colour segments hi (k := 0) (by omega)
  opens i hi := getElem?_fan centre radius colour segments hi (k := 1) (by omega)
  closes i hi := by
    rw [getElem?_fan centre radius colour segments hi (by omega), UInt32.ofNat_add]
    rfl
  steps i hi := addWord_ofNat hi
  joined i hi := by
    rw [getElem?_fan centre radius colour segments (by omega) (by omega),
      getElem?_fan centre radius colour segments hi (by omega), UInt32.ofNat_add]
    rfl

/-- The check of a circle counts its vertices and does nothing else. -/
theorem circle_eq_ok (h : 3 * segments.toNat < UInt32.size) :
    circle centre radius colour segments = .ok (fan centre radius colour segments) := by
  have hfits : segments.toNat * (3 : UInt32).toNat < UInt32.size := by
    rw [Nat.mul_comm]; exact h
  rw [circle, mulWord, if_pos hfits]
  rfl

theorem circle_eq_error (h : UInt32.size ≤ 3 * segments.toNat) :
    circle centre radius colour segments = .error .mulOverflow := by
  have hover : ¬segments.toNat * (3 : UInt32).toNat < UInt32.size := by
    rw [Nat.mul_comm]; exact Nat.not_lt.mpr h
  rw [circle, mulWord, if_neg hover]
  rfl

/-- **Complete circles.** A circle is an unbroken fan wherever its vertices can be counted in a
word, and otherwise is stopped by the count. -/
theorem circle_complete :
    (3 * segments.toNat < UInt32.size → ∃ vertices,
      circle centre radius colour segments = .ok vertices ∧
        IsFan centre radius colour segments vertices) ∧
    (UInt32.size ≤ 3 * segments.toNat →
      circle centre radius colour segments = .error .mulOverflow) :=
  ⟨fun h => ⟨_, circle_eq_ok _ _ _ _ h, isFan_fan _ _ _ _⟩, circle_eq_error _ _ _ _⟩

end Fan

/-- The greatest number of segments a circle can have, and the first that it cannot. -/
theorem circle_complete_ends :
    (∃ vertices, circle .zero 1 ⟨1, 0, 0, 1⟩ 1431655765 = .ok vertices ∧
      IsFan .zero 1 ⟨1, 0, 0, 1⟩ 1431655765 vertices) ∧
    circle .zero 1 ⟨1, 0, 0, 1⟩ 1431655766 = .error .mulOverflow :=
  ⟨(circle_complete .zero 1 ⟨1, 0, 0, 1⟩ 1431655765).1 (by decide),
    (circle_complete .zero 1 ⟨1, 0, 0, 1⟩ 1431655766).2 (by decide)⟩

/-- One segment more than a third of the words and there is no circle. -/
theorem circle_too_many :
    ¬∃ vertices, circle .zero 1 ⟨1, 0, 0, 1⟩ 1431655766 = .ok vertices := by
  rintro ⟨vertices, h⟩
  rw [circle_eq_error _ _ _ _ (by decide)] at h
  cases h

end PlantGrowth.Mesh
