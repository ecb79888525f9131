import PlantGrowth.Proofs.Binary32

/-!
# The order of scalars

Scalars are ordered as their ranks are (`Scalar.le_iff`, `Scalar.lt_iff`): two numbers compare as
their exponents do and, where these agree, as their mantissas, which is how their ranks compare
(`compare_rankAt`). What is no number has a rank above all others and compares with nothing.
The ranks also tell which scalars are numbers (`isNaN_iff`) and which are finite
(`isFinite_iff`).
-/

set_option autoImplicit false

namespace PlantGrowth.Scalar

open Float.Model (Format UnpackedFloat)
open Float.Model.UnpackedFloat
open Rounding

/-! ## Numbers taken apart -/

theorem compare_rankAt {m n : ℕ} {d e : ℤ} (hm : IsMantissa m d) (hn : IsMantissa n e) :
    (compare d e).then (compare m n) = compare (rankAt m d) (rankAt n e) := by
  obtain ⟨-, hmlt, hmge, hmleast⟩ := hm
  obtain ⟨-, hnlt, hnge, hnleast⟩ := hn
  rcases lt_trichotomy d e with h | rfl | h
  · have hrank : rankAt m d < rankAt n e := by
      unfold rankAt
      omega
    rw [Int.compare_eq_lt.mpr h, Int.compare_eq_lt.mpr hrank]
    rfl
  · rw [Int.compare_eq_eq.mpr rfl, Ordering.then]
    rcases lt_trichotomy m n with hlt | rfl | hlt
    · rw [Nat.compare_eq_lt.mpr hlt, Int.compare_eq_lt.mpr (by unfold rankAt; omega)]
    · rw [Nat.compare_eq_eq.mpr rfl, Int.compare_eq_eq.mpr rfl]
    · rw [Nat.compare_eq_gt.mpr hlt, Int.compare_eq_gt.mpr (by unfold rankAt; omega)]
  · have hrank : rankAt n e < rankAt m d := by
      unfold rankAt
      omega
    rw [Int.compare_eq_gt.mpr h, Int.compare_eq_gt.mpr hrank]
    rfl

theorem swap_compare (a b : ℤ) : (compare a b).swap = compare (-a) (-b) := by
  rcases lt_trichotomy a b with h | rfl | h
  · rw [Int.compare_eq_lt.mpr h, Int.compare_eq_gt.mpr (by omega)]
    rfl
  · rw [Int.compare_eq_eq.mpr rfl, Int.compare_eq_eq.mpr rfl]
    rfl
  · rw [Int.compare_eq_gt.mpr h, Int.compare_eq_lt.mpr (by omega)]
    rfl

theorem rankAt_pos {m : ℕ} {e : ℤ} (hm : 0 < m) (h : IsMantissa m e) : 0 < rankAt m e := by
  have := h.least
  unfold rankAt
  omega

/-- Numbers compare as their ranks do. -/
theorem compare_eq {u v : UnpackedFloat} {r t : ℤ} (hu : Reads u r) (hv : Reads v t) :
    u.compare v = some (compare r t) := by
  have htop := top_pos
  have hlt : ∀ {a b : ℤ}, a < b → some Ordering.lt = some (compare a b) := by
    intro a b h
    rw [Int.compare_eq_lt.mpr h]
  have hgt : ∀ {a b : ℤ}, b < a → some Ordering.gt = some (compare a b) := by
    intro a b h
    rw [Int.compare_eq_gt.mpr h]
  -- one case for each pair of kinds of numbers, in the order of the definition of the comparison
  cases hu with
  | zero s =>
    cases hv with
    | zero s' => rfl
    | finite s' hn h' hb' =>
      have := rankAt_pos hn h'
      cases s' with
      | positive => exact hlt this
      | negative => exact hgt (by simp only [Sign.apply]; omega)
    | infinity s' =>
      cases s' with
      | positive => exact hlt htop
      | negative => exact hgt (by simp only [Sign.apply]; omega)
  | finite s hm h hb =>
    have hpos := rankAt_pos hm h
    cases hv with
    | zero s' =>
      cases s with
      | positive => exact hgt hpos
      | negative => exact hlt (by simp only [Sign.apply]; omega)
    | finite s' hn h' hb' =>
      have hpos' := rankAt_pos hn h'
      cases s <;> cases s'
      · rw [UnpackedFloat.compare, compare_rankAt h h', Sign.apply, Sign.apply, swap_compare]
      · exact hlt (by simp only [Sign.apply]; omega)
      · exact hgt (by simp only [Sign.apply]; omega)
      · rw [UnpackedFloat.compare, compare_rankAt h h', Sign.apply, Sign.apply]
    | infinity s' =>
      cases s' with
      | positive => cases s <;> exact hlt (by simp only [Sign.apply]; omega)
      | negative => cases s <;> exact hgt (by simp only [Sign.apply]; omega)
  | infinity s =>
    cases hv with
    | zero s' =>
      cases s with
      | positive => exact hgt htop
      | negative => exact hlt (by simp only [Sign.apply]; omega)
    | finite s' hn h' hb' =>
      have hpos' := rankAt_pos hn h'
      cases s with
      | positive => cases s' <;> exact hgt (by simp only [Sign.apply]; omega)
      | negative => cases s' <;> exact hlt (by simp only [Sign.apply]; omega)
    | infinity s' => cases s <;> cases s' <;> rfl

/-! ## Scalars -/

variable {x y : Scalar}

theorem reads_of_rank_le (h : x.rank ≤ top) : Reads x.toModel.unpack x.rank := by
  rcases unpack_cases x with ⟨-, hlt⟩ | hread
  · omega
  · exact hread

theorem Reads.le_top {u : UnpackedFloat} {r : ℤ} (h : Reads u r) : -top ≤ r ∧ r ≤ top := by
  have htop := top_pos
  cases h with
  | zero s => omega
  | finite s hm h hlt =>
    have := rankAt_pos hm h
    cases s <;> simp only [Sign.apply] <;> omega
  | infinity s => cases s <;> simp only [Sign.apply] <;> omega

theorem Reads.isNaN_eq {u : UnpackedFloat} {r : ℤ} (h : Reads u r) : u.isNaN = false := by
  cases h <;> rfl

theorem Reads.isFinite_iff {u : UnpackedFloat} {r : ℤ} (h : Reads u r) :
    u.isFinite = true ↔ -top < r ∧ r < top := by
  have htop := top_pos
  cases h with
  | zero s => simp [UnpackedFloat.isFinite, htop]
  | finite s hm h hlt =>
    have := rankAt_pos hm h
    refine iff_of_true rfl ?_
    cases s <;> simp only [Sign.apply] <;> omega
  | infinity s =>
    refine iff_of_false (by simp [UnpackedFloat.isFinite]) ?_
    cases s <;> simp only [Sign.apply] <;> omega

theorem compare_unpack (hx : x.rank ≤ top) (hy : y.rank ≤ top) :
    x.toModel.unpack.compare y.toModel.unpack = some (compare x.rank y.rank) :=
  compare_eq (reads_of_rank_le hx) (reads_of_rank_le hy)

/-- What is no number compares with nothing. -/
theorem compare_unpack_eq_none (h : top < x.rank ∨ top < y.rank) :
    x.toModel.unpack.compare y.toModel.unpack = none := by
  have hnan : ∀ {z : Scalar}, top < z.rank → z.toModel.unpack = .notANumber := by
    intro z hz
    rcases unpack_cases z with ⟨hz', -⟩ | hread
    · exact hz'
    · exact absurd hread.le_top.2 (not_le.mpr hz)
  rcases h with h | h
  · rw [hnan h]
    rfl
  · rw [hnan h]
    cases x.toModel.unpack with
    | infinity s => cases s <;> rfl
    | finite s m e hm => cases s <;> rfl
    | zero s => rfl
    | notANumber => rfl

/-- Scalars are ordered by their ranks. -/
theorem le_iff : x ≤ y ↔ x.rank ≤ y.rank ∧ y.rank ≤ top := by
  have hle : x ≤ y ↔ (x.toModel.unpack.compare y.toModel.unpack).any (·.isLE) = true :=
    decide_eq_true_iff
  rw [hle]
  by_cases h : x.rank ≤ top ∧ y.rank ≤ top
  · rw [compare_unpack h.1 h.2, Option.any_some, Int.isLE_compare]
    omega
  · rw [compare_unpack_eq_none (by omega), Option.any_none]
    simp only [Bool.false_eq_true, false_iff]
    omega

/-- One scalar is below another exactly if it comes first in the row and neither is a missing
number. -/
theorem lt_iff : x < y ↔ x.rank < y.rank ∧ y.rank ≤ top := by
  have hlt : x < y ↔ (x.toModel.unpack.compare y.toModel.unpack == some .lt) = true :=
    decide_eq_true_iff
  rw [hlt]
  by_cases h : x.rank ≤ top ∧ y.rank ≤ top
  · rw [compare_unpack h.1 h.2, beq_iff_eq, Option.some.injEq, Int.compare_eq_lt]
    omega
  · rw [compare_unpack_eq_none (by omega)]
    simp only [reduceCtorEq, beq_iff_eq, false_iff]
    omega

theorem beq_iff : (x == y) = true ↔ x.rank = y.rank ∧ y.rank ≤ top := by
  have hbeq : (x == y) = (x.toModel.unpack.compare y.toModel.unpack == some .eq) := rfl
  rw [hbeq]
  by_cases h : x.rank ≤ top ∧ y.rank ≤ top
  · rw [compare_unpack h.1 h.2, beq_iff_eq, Option.some.injEq, Int.compare_eq_eq]
    omega
  · rw [compare_unpack_eq_none (by omega)]
    simp only [reduceCtorEq, beq_iff_eq, false_iff]
    omega

theorem isNaN_iff : x.isNaN = true ↔ top < x.rank := by
  have hnan : x.isNaN = x.toModel.unpack.isNaN := rfl
  rw [hnan]
  rcases unpack_cases x with ⟨hx, hlt⟩ | hread
  · rw [hx]
    exact iff_of_true rfl hlt
  · have := hread.le_top.2
    rw [hread.isNaN_eq]
    exact iff_of_false Bool.false_ne_true (by omega)

theorem isFinite_iff : x.isFinite = true ↔ -top < x.rank ∧ x.rank < top := by
  have hfinite : x.isFinite = x.toModel.unpack.isFinite := rfl
  rw [hfinite]
  rcases unpack_cases x with ⟨hx, hlt⟩ | hread
  · rw [hx]
    exact iff_of_false Bool.false_ne_true (by omega)
  · exact hread.isFinite_iff

end PlantGrowth.Scalar
