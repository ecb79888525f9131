import PlantGrowth.Proofs.Sampling
import PlantGrowth.Proofs.Failures
import PlantGrowth.Proofs.Depths
import PlantGrowth.Species.Basic

/-!
# Draws of the turtle

Every number the turtle draws comes from an interval of its parameters, and if these intervals can
be sampled (`GrowthParams.Drawable`), no draw fails (`Turtle.shape_ne_error`). The intervals of the
length and of the palette are as given. That of the turn depends on the depth of the branch and the
age of the plant, but is never wider than the greatest one (`Turtle.wander_le`), because no frame is
deeper than the plant is old.

An index that is drawn is below the length it is drawn for (`WordSource.index_lt`), so choosing a
text never fails either (`Rule.select_ne_error`).
-/

set_option autoImplicit false

namespace PlantGrowth

open Scalar Rounding

/-! ## Random turns -/

/-- A factor of at most one does not make a product greater, if there is a product at all. -/
theorem Scalar.mul_le_of_le_one {x y : Scalar} (hx : 0 ≤ x) (hy : 0 ≤ y) (hy1 : y ≤ 1)
    (hnan : (x * y).rank ≤ top) : x * y ≤ x := by
  rw [le_iff, and_iff_left (nonneg_iff.mp hx).2]
  rcases value_or_infinite hx with ⟨p, hp, hxp⟩ | hinf
  · obtain ⟨q, hyq, -, hq1⟩ := exists_value_of_le hy value_one hy1
    rw [rank_mul hxp hyq, rank_eq_nearest hxp]
    exact nearest_mono (mul_le_of_le_one_right hp hq1)
  · rwa [rank_infinity hinf]

theorem Scalar.le_maxNum_left {x y : Scalar} (hx : x.rank ≤ top) : x ≤ maxNum x y := by
  have hnan : ¬ x.isNaN = true := by
    rw [isNaN_iff]
    omega
  unfold maxNum
  rw [if_neg hnan]
  split
  · rename_i hlt
    rw [lt_iff] at hlt
    exact le_iff.mpr ⟨hlt.1.le, hlt.2⟩
  · exact le_self hx

theorem Scalar.le_maxNum_right {x y : Scalar} (hy : y.rank ≤ top) : y ≤ maxNum x y := by
  unfold maxNum
  split
  · exact le_self hy
  · rename_i hnan
    rw [isNaN_iff, not_lt] at hnan
    split
    · exact le_self hy
    · rename_i hlt
      exact le_of_not_lt hnan hy hlt

/-- A greater number does not make the choice of the greater one smaller. -/
theorem Scalar.maxNum_le_maxNum_left {x x' : Scalar} (h : x ≤ x') (y : Scalar) :
    maxNum x y ≤ maxNum x' y := by
  have hbounds := le_iff.mp h
  have hleft := le_maxNum_left (y := y) hbounds.2
  have hnan : ¬ x.isNaN = true := by
    rw [isNaN_iff]
    omega
  rw [maxNum, if_neg hnan]
  split
  · rename_i hlt
    exact le_maxNum_right (lt_iff.mp hlt).2
  · exact le_trans h hleft

/-- A frame that is not deeper than the plant is old has a relative depth between zero and one. -/
theorem Turtle.relativeDepth_bounds {age depth : UInt32} (h : depth ≤ age) :
    0 ≤ relativeDepth age depth ∧ relativeDepth age depth ≤ 1 := by
  apply Scalar.ratio_bounds
  · exact UInt32.le_trans h (word_le_max_left age 1)
  · exact UInt32.lt_of_lt_of_le (by decide) (word_le_max_right age 1)

/-- The random turn of a branch is at most the greatest one, if it is a number at all. -/
theorem Turtle.wander_le {params : GrowthParams} {age depth : UInt32}
    (hjitter : ¬ params.branchJitter < 0) (h : depth ≤ age)
    (hnumber : (wander params age depth).rank ≤ top) :
    wander params age depth ≤ maxNum params.branchJitter params.minBranchJitter := by
  obtain ⟨hrel0, hrel1⟩ := relativeDepth_bounds h
  unfold wander at hnumber ⊢
  generalize relativeDepth age depth = relative at *
  by_cases hnan : (params.branchJitter * relative).isNaN = true
  · -- then the least turn alone counts
    rw [maxNum_nan hnan] at hnumber ⊢
    exact le_maxNum_right hnumber
  · have hproduct : (params.branchJitter * relative).rank ≤ top := by
      rwa [isNaN_iff, not_lt] at hnan
    have hjitter0 : 0 ≤ params.branchJitter := by
      refine le_of_not_lt ?_ (by decide) hjitter
      by_contra hlt
      exact absurd hproduct (not_le.mpr (top_lt_rank_mul (not_le.mp hlt) relative))
    exact maxNum_le_maxNum_left (mul_le_of_le_one hjitter0 hrel0 hrel1 hproduct) _

/-! ## What can be drawn -/

/-- Palette whose leaf colours can be drawn. -/
structure Palette.Drawable (p : Palette) : Prop where
  hue : Samplable 0 (p.leafHue.2 - p.leafHue.1)
  saturation : Samplable (p.leafSaturation.1 + p.shift.saturation)
    (p.leafSaturation.2 + p.shift.saturation)
  brightness : Samplable (p.leafBrightness.1 + p.shift.brightness)
    (p.leafBrightness.2 + p.shift.brightness)

/-- However the colours of the default palette are shifted, they can be drawn. -/
theorem Palette.drawable_shift (shift : ColourShift) : ({ shift } : Palette).Drawable where
  hue := samplable_of_nonneg (by decide) (show ((310 : Scalar) - 250).isFinite = true by decide)
  saturation :=
    have hlow : value? 70 = some 70 := value_ofNat 70 (by norm_num)
    have hhigh : value? 80 = some 80 := value_ofNat 80 (by norm_num)
    samplable_add hlow hhigh (by norm_num) (by norm_num) (by norm_num) shift.saturation
  brightness :=
    have hlow : value? 75 = some 75 := value_ofNat 75 (by norm_num)
    have hhigh : value? 90 = some 90 := value_ofNat 90 (by norm_num)
    samplable_add hlow hhigh (by norm_num) (by norm_num) (by norm_num) shift.brightness

/-- Parameters with which every draw of the turtle can be made. -/
structure GrowthParams.Drawable (params : GrowthParams) : Prop where
  length : Samplable params.lengthJitter.1 params.lengthJitter.2
  branchJitter : ¬ params.branchJitter < 0
  turn : Samplable (-maxNum params.branchJitter params.minBranchJitter)
    (maxNum params.branchJitter params.minBranchJitter)
  palette : params.palette.Drawable

variable {σ : Type} [WordSource σ]

/-- From an interval that can be sampled, a sample can be drawn with every word. -/
theorem WordSource.range_ne_error {lo hi : Scalar} (h : Samplable lo hi) (source : σ) (e : Fault) :
    RandomSource.range lo hi source ≠ .error e :=
  fun herror => (range_eq_error herror).2 h

theorem Palette.leafColour_ne_error {p : Palette} (h : p.Drawable) (source : σ) (e : Fault) :
    p.leafColour source ≠ .error e := by
  simp only [leafColour, ne_eq, Outcome.except_bind_eq_error, Outcome.except_pure_eq_error, not_or,
    and_false, exists_false, not_exists, not_and, or_false]
  exact ⟨WordSource.range_ne_error h.hue source e, fun a _ =>
    ⟨WordSource.range_ne_error h.saturation _ e, fun b _ =>
      WordSource.range_ne_error h.brightness _ e⟩⟩

namespace Turtle

/-- A random turn can always be drawn, for frames are not deeper than the plant is old. -/
theorem samplable_wander {params : GrowthParams} (h : params.Drawable) {age depth : UInt32}
    (hdepth : depth ≤ age) : Samplable (-wander params age depth) (wander params age depth) := by
  by_cases hnumber : (wander params age depth).rank ≤ top
  · exact samplable_neg h.turn (wander_le h.branchJitter hdepth hnumber)
  · intro hlt
    exact absurd (lt_iff.mp hlt).2 hnumber

/-- Everything a node needs can be drawn. -/
theorem shape_ne_error {params : GrowthParams} (h : params.Drawable) {age : UInt32} {frame : Frame}
    (hdepth : frame.depth ≤ age) (action : Action) (source : σ) (e : Fault) :
    shape params age frame action source ≠ .error e := by
  intro herror
  cases action with
  | branch =>
    simp only [shape, sproutBranch, RandomSource.spread, Outcome.except_bind_eq_error,
      Outcome.except_pure_eq_error, and_false, exists_false, or_false] at herror
    rcases herror with herror | ⟨turn, -, herror | ⟨factor, -, herror⟩⟩
    · exact WordSource.range_ne_error (samplable_wander h hdepth) source e herror
    · exact WordSource.range_ne_error h.length _ e herror
    · exact Palette.leafColour_ne_error h.palette _ e herror
  | bud =>
    simp only [shape, Outcome.except_bind_eq_error, Outcome.except_pure_eq_error, and_false,
      exists_false, or_false] at herror
    exact Palette.leafColour_ne_error h.palette source e herror
  | turnLeft => cases herror
  | turnRight => cases herror
  | save => cases herror
  | restore => cases herror
  | placeholder => cases herror

end Turtle

/-! ## Choice of texts -/

namespace WordSource

/-- The index is below the length: where a further draw carries, the whole part is at least two
below it. -/
theorem scaledIndex_lt {σ : Type} {bound length : Nat} {draw : σ → Nat × σ}
    (hdraw : ∀ s, (draw s).1 < bound) (hlength : 0 < length) (source : σ) :
    (scaledIndex bound draw length source).1 < length := by
  have hfirst := hdraw source
  have hbound : 0 < bound := Nat.zero_lt_of_lt hfirst
  have hdiv := Nat.div_add_mod ((draw source).1 * length) bound
  have hle : (draw source).1 * length + length ≤ bound * length := by
    rw [← Nat.succ_mul]
    exact Nat.mul_le_mul_right length hfirst
  unfold scaledIndex
  dsimp only
  generalize (draw source).1 * length / bound = whole at *
  generalize (draw source).1 * length % bound = fraction at *
  have hwhole : whole < length := by
    apply Nat.lt_of_mul_lt_mul_left (a := bound)
    omega
  split
  · rename_i hcarry
    have hbelow : whole + 1 < length := by
      by_contra hge
      have hmul := Nat.mul_le_mul_left bound (Nat.le_of_not_lt hge)
      rw [Nat.mul_succ] at hmul
      omega
    split
    · exact hbelow
    · exact hwhole
  · exact hwhole

theorem index_lt {σ : Type} [WordSource σ] {length : Nat} (h : 0 < length) (source : σ) :
    (RandomSource.index length source).1 < length := by
  show (index length source).1 < length
  unfold index
  rw [if_neg h.ne']
  split
  · exact scaledIndex_lt (fun s => (next s).1.toNat_lt) h source
  · refine scaledIndex_lt (fun s => ?_) h source
    have hlow := (next s).1.toNat_lt
    have hhigh := (next (next s).2).1.toNat_lt
    show (next s).1.toNat + UInt32.size * (next (next s).2).1.toNat < UInt64.size
    simp only [UInt32.size, UInt64.size]
    omega

end WordSource

/-- An index is drawn below the number of texts, so there is a text at it. -/
theorem Rule.select_ne_error {σ υ : Type} [WordSource σ] (rule : Rule (List υ)) (source : σ)
    (e : Fault) : rule.select source ≠ .error e := by
  intro h
  unfold select at h
  split at h
  · cases h
  · cases h
  · rename_i hnil hone
    have hpos : 0 < rule.texts.length := List.length_pos_iff.mpr hnil
    have hlt := WordSource.index_lt hpos source
    generalize RandomSource.index rule.texts.length source = r at *
    obtain ⟨i, source₁⟩ := r
    dsimp only at h hlt
    rw [List.getElem?_eq_getElem hlt] at h
    cases h

end PlantGrowth
