import PlantGrowth.Proofs.ScalarBounds
import PlantGrowth.Chance.Source

/-!
# Sampling an interval

A word source samples an interval unless that is not empty and has an end or a width that is not
finite (`Samplable`, `WordSource.range_eq_error`). Samples are never below the lower end, however
the word is scaled and rounded (`WordSource.le_stretch`).

Three kinds of intervals are seen to be samplable: those of numbers that are not negative
(`samplable_of_nonneg`), those about zero that are no wider than a samplable one (`samplable_neg`)
and small ones wherever they are shifted to (`samplable_add`), since the shift either leaves them
narrow or makes them empty.
-/

set_option autoImplicit false

namespace PlantGrowth

open Scalar Rounding

/-- Source whose samples of an interval are not below its lower end. -/
class RandomSource.Bounded (σ : Type) [RandomSource σ] : Prop where
  le_range {lo hi x : Scalar} {s t : σ} : lo ≤ hi →
    RandomSource.range lo hi s = .ok (x, t) → lo ≤ x

/-- Interval that can be sampled: it is empty, or its ends and its width are finite. -/
def Samplable (lo hi : Scalar) : Prop :=
  lo < hi → lo.isFinite = true ∧ hi.isFinite = true ∧ (hi - lo).isFinite = true

section Samplable

variable {lo hi x y : Scalar}

theorem samplable_of_nonneg (hlo : 0 ≤ lo) (hhi : hi.isFinite = true) : Samplable lo hi := by
  intro hlt
  have hlo0 := nonneg_iff.mp hlo
  have hhi0 := isFinite_iff.mp hhi
  have hrank := lt_iff.mp hlt
  have hfinite : lo.isFinite = true := isFinite_iff.mpr ⟨by omega, by omega⟩
  refine ⟨hfinite, hhi, ?_⟩
  obtain ⟨l, hl⟩ := exists_value hfinite
  obtain ⟨r, hr⟩ := exists_value hhi
  have hl0 := (value_nonneg_iff hl).mp hlo
  have hlr := (value_lt_iff hl hr).mp hlt
  -- the width is between zero and the upper end
  have hlow : nearest 0 ≤ nearest (r - l) := nearest_mono (by linarith)
  have hhigh : nearest (r - l) ≤ nearest r := nearest_mono (by linarith)
  rw [nearest_zero] at hlow
  rw [← rank_eq_nearest hr] at hhigh
  rw [isFinite_iff, rank_sub hr hl]
  omega

/-- A narrower interval about zero can be sampled where a wider one can. -/
theorem samplable_neg (h : Samplable (-y) y) (hle : x ≤ y) : Samplable (-x) x := by
  intro hlt
  obtain ⟨hxy, hytop⟩ := le_iff.mp hle
  have hx := lt_iff.mp hlt
  rw [rank_neg (hxy.trans hytop)] at hx
  obtain ⟨-, hy, hwidth⟩ := h (lt_iff.mpr (by rw [rank_neg hytop]; omega))
  have hy' := isFinite_iff.mp hy
  have hfinite : x.isFinite = true := isFinite_iff.mpr ⟨by omega, by omega⟩
  obtain ⟨p, hp⟩ := exists_value hfinite
  obtain ⟨q, hq⟩ := exists_value hy
  have hp0 : 0 ≤ p := (value_nonneg_iff hp).mp (nonneg_iff.mpr ⟨by omega, by omega⟩)
  have hpq : p ≤ q := (value_le_iff hp hq).mp hle
  refine ⟨isFinite_of_value (value_neg hp), hfinite, ?_⟩
  have hlow : nearest 0 ≤ nearest (p - -p) := nearest_mono (by linarith)
  have hhigh : nearest (p - -p) ≤ nearest (q - -q) := nearest_mono (by linarith)
  rw [nearest_zero] at hlow
  rw [isFinite_iff, rank_sub hq (value_neg hq)] at hwidth
  rw [isFinite_iff, rank_sub hp (value_neg hp)]
  omega

/-- An interval of small positive numbers can be sampled wherever it is shifted to. -/
theorem samplable_add {p q : ℚ} (hx : x.value? = some p) (hy : y.value? = some q) (hp : 0 ≤ p)
    (hpq : p ≤ q) (hq : q < 2 ^ 100) (shift : Scalar) : Samplable (x + shift) (y + shift) := by
  intro hlt
  by_cases hfinite : shift.isFinite = true
  swap
  · rw [add_of_not_finite (isFinite_of_value hx) hfinite,
      add_of_not_finite (isFinite_of_value hy) hfinite, lt_iff] at hlt
    omega
  obtain ⟨v, hv⟩ := exists_value hfinite
  have hbound := abs_le.mp (abs_value_le_largest hv)
  have hthreshold : ∀ {r : ℚ}, |r| ≤ largest + 2 ^ 100 → -top < nearest r ∧ nearest r < top := by
    intro r hr
    apply nearest_lt_top
    refine hr.trans_lt ?_
    rw [largest]
    norm_num
  have hlow := rank_add hx hv
  have hhigh := rank_add hy hv
  have hlow' : (x + shift).isFinite = true := by
    rw [isFinite_iff, hlow]
    exact hthreshold (abs_le.mpr ⟨by linarith, by linarith⟩)
  have hhigh' : (y + shift).isFinite = true := by
    rw [isFinite_iff, hhigh]
    exact hthreshold (abs_le.mpr ⟨by linarith, by linarith⟩)
  obtain ⟨l, hl⟩ := exists_value hlow'
  obtain ⟨r, hr⟩ := exists_value hhigh'
  refine ⟨hlow', hhigh', ?_⟩
  have hlr := (value_lt_iff hl hr).mp hlt
  -- the lower end is not below the shift
  have hvl : v ≤ l :=
    (value_le_iff hv hl).mp (le_of_rank (rank_eq_nearest hv) hlow (by linarith))
  have hrbound := abs_le.mp (abs_value_le_largest hr)
  rw [isFinite_iff, rank_sub hr hl]
  rcases le_total 0 v with hsign | hsign
  · exact hthreshold (abs_le.mpr ⟨by linarith, by linarith⟩)
  · -- for a negative shift the upper end is not above the unshifted one
    have hrq : r ≤ q :=
      (value_le_iff hr hy).mp (le_of_rank hhigh (rank_eq_nearest hy) (by linarith))
    exact hthreshold (abs_le.mpr ⟨by linarith, by linarith⟩)

end Samplable

namespace WordSource

variable {σ : Type} [WordSource σ] {lo hi x : Scalar} {s t : σ}

theorem range_eq_error {e : Fault} (h : range lo hi s = .error e) :
    e = .unboundedRange ∧ ¬ Samplable lo hi := by
  unfold range at h
  split at h
  · rename_i hlt
    split at h
    · cases h
    · rename_i hfinite
      cases h
      refine ⟨rfl, fun hs => hfinite ?_⟩
      obtain ⟨hlo, hhi, hwidth⟩ := hs hlt
      rw [hlo, hhi, hwidth]
      rfl
  · cases h

theorem shiftRight_lt (word : UInt32) : (word >>> 9).toNat < 2 ^ 23 := by
  have := word.toNat_lt
  rw [UInt32.toNat_shiftRight, Nat.shiftRight_eq_div_pow]
  change word.toNat / 2 ^ 9 < 2 ^ 23
  omega

/-- The bits of a word behind those of one are the bits of a number in `[1, 2)`. -/
theorem rank_ofBits_word (word : UInt32) :
    rank (Float32.ofBits ((0x3f800000 : UInt32) ||| (word >>> 9))) =
      127 * 2 ^ 23 + (word >>> 9).toNat := by
  have hshift := shiftRight_lt word
  have hbits : ((0x3f800000 : UInt32) ||| (word >>> 9)).toNat =
      127 * 2 ^ 23 + (word >>> 9).toNat := by
    rw [UInt32.toNat_or, ← Nat.shiftLeft_eq, Nat.shiftLeft_add_eq_or_of_lt hshift]
    rfl
  rw [rank_ofBits (b := (0x3f800000 : UInt32) ||| (word >>> 9)) (by omega), hbits]
  norm_num

/-- The number made of a word is in `[0, 1]`. -/
theorem unit_bounds (word : UInt32) : 0 ≤ unit word ∧ unit word ≤ 1 := by
  have hshift := shiftRight_lt word
  have hrank := rank_ofBits_word word
  have hone : rank 1 = 127 * 2 ^ 23 := by decide
  have htwo : rank 2 = 128 * 2 ^ 23 := by decide
  have htop : top = 255 * 2 ^ 23 := rfl
  unfold unit
  generalize Float32.ofBits ((0x3f800000 : UInt32) ||| (word >>> 9)) = x at *
  obtain ⟨p, hp⟩ := exists_value (isFinite_iff.mpr ⟨by omega, by omega⟩ : x.isFinite = true)
  have hvalue : value? 2 = some 2 := value_ofNat 2 (by norm_num)
  have hlow : 1 ≤ p := (value_le_iff value_one hp).mp (le_iff.mpr ⟨by omega, by omega⟩)
  have hhigh : p ≤ 2 := (value_le_iff hp hvalue).mp (le_iff.mpr ⟨by omega, by omega⟩)
  apply unit_bounds_of_rank (rank_sub hp value_one)
  · linarith
  · linarith

/-- The width of an interval that is not empty is not rounded below zero. -/
theorem width_nonneg {l r w : ℚ} (hl : lo.value? = some l) (hr : hi.value? = some r)
    (hw : (hi - lo).value? = some w) (h : lo < hi) : 0 ≤ w := by
  have hlr := (value_lt_iff hl hr).mp h
  apply (value_nonneg_iff hw).mp
  exact nonneg_of_rank (rank_sub hr hl) (sub_nonneg.mpr hlr.le)

/-- A word stretched over an interval stays above the lower end, however the steps are rounded. -/
theorem le_stretch (word : UInt32) (h : lo < hi) (hlo : lo.isFinite = true)
    (hhi : hi.isFinite = true) (hwidth : (hi - lo).isFinite = true) :
    lo ≤ unit word * (hi - lo) + lo := by
  obtain ⟨hunit, hunit'⟩ := unit_bounds word
  obtain ⟨u, hu, hu0, hu1⟩ := exists_value_of_le hunit value_one hunit'
  obtain ⟨l, hl⟩ := exists_value hlo
  obtain ⟨r, hr⟩ := exists_value hhi
  obtain ⟨w, hw⟩ := exists_value hwidth
  have hw0 : 0 ≤ w := width_nonneg hl hr hw h
  -- the product is between zero and the width, hence finite
  obtain ⟨v, hv, hv0, -⟩ := exists_value_share hu hu0 hu1 hw hw0
  exact le_of_rank (rank_eq_nearest hl) (rank_add hv hl) (by linarith)

instance : RandomSource.Bounded σ where
  le_range := by
    intro lo hi x s t hle h
    change range lo hi s = .ok (x, t) at h
    unfold range at h
    split at h
    · rename_i hlt
      split at h
      · rename_i hfinite
        rw [Bool.and_eq_true, Bool.and_eq_true] at hfinite
        obtain ⟨⟨hlo, hhi⟩, hwidth⟩ := hfinite
        cases h
        exact le_stretch _ hlt hlo hhi hwidth
      · cases h
    · cases h
      exact le_iff.mpr ⟨le_rfl, (le_iff.mp hle).1.trans (le_iff.mp hle).2⟩

end WordSource

end PlantGrowth
