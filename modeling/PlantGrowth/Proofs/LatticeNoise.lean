import PlantGrowth.Proofs.WholePart
import PlantGrowth.Wind.Noise

/-!
# Values of the lattice noise

Wherever a finite point has a cell, the noise there is a number in `[0, 1]`; the points from
`2 ^ 31` on along some axis have none, because the opposite corner of theirs is beyond the 32-bit
integers (`Lattice.sample_of_lt`, `Lattice.sample_eq_error`). Below there is no such end: the
conversion stops at the least integer, and the corner one further is an integer still.

The blend of the corners is rounded at every step and may leave `[0, 1]` before it is clamped, and
what is no number would pass the clamp. That the blend is a number is shown with bounds that are
powers of two (`Scalar.Within`): a rounded operation that is exactly within a power of two stays
within it.
-/

set_option autoImplicit false

namespace PlantGrowth

open Scalar Rounding

/-! ## Bounds by powers of two -/

namespace Scalar

/-- Finite, and no further from zero than a power of two. -/
def Within (k : ℕ) (x : Scalar) : Prop := ∃ q, x.value? = some q ∧ |q| ≤ 2 ^ k

variable {x y a b t : Scalar} {p : ℚ} {j k : ℕ}

theorem exists_denotes_two_pow (hk : k ≤ 127) : ∃ u, Denotes u (2 ^ k) := by
  have hmantissa : IsMantissa (2 ^ 23) (k - 23) :=
    ⟨by norm_num, by norm_num, Or.inr le_rfl, by omega⟩
  have hexponent : (k : ℤ) - 23 + (23 : ℕ) = k := by omega
  obtain ⟨u, hu⟩ := exists_denotes_mantissa hmantissa (by simp only [rankAt, top]; omega)
  rw [Int.cast_pow, Int.cast_ofNat, ← zpow_add_natCast, hexponent, zpow_natCast] at hu
  exact ⟨u, hu⟩

/-- Powers of two are not rounded, so what is between two of them is not rounded past them. -/
theorem within_of_rank (hk : k ≤ 127) (hx : x.rank = nearest p) (hp : |p| ≤ 2 ^ k) :
    Within k x := by
  obtain ⟨u, hu⟩ := exists_denotes_two_pow hk
  obtain ⟨hlow, hhigh⟩ := abs_le.mp hp
  have hrlow := nearest_mono hlow
  have hrhigh := nearest_mono hhigh
  have hfinite : x.isFinite = true := by
    have hbound := hu.nearest_finite
    rw [isFinite_iff, hx]
    rw [nearest_neg] at hrlow
    omega
  obtain ⟨q, hq⟩ := exists_value hfinite
  have hqp : nearest q = nearest p := by rw [← rank_eq_nearest hq, hx]
  refine ⟨q, hq, abs_le.mpr ⟨?_, ?_⟩⟩
  · exact hu.neg.le_of_nearest_le (denotes_unpack hq) (hqp ▸ hrlow)
  · exact (denotes_unpack hq).le_of_nearest_le hu (hqp ▸ hrhigh)

theorem Within.mono (h : Within j x) (hjk : j ≤ k) : Within k x := by
  obtain ⟨q, hq, hbound⟩ := h
  exact ⟨q, hq, hbound.trans (pow_le_pow_right₀ (by norm_num) hjk)⟩

theorem Within.isFinite (h : Within k x) : x.isFinite = true := by
  obtain ⟨q, hq, -⟩ := h
  exact isFinite_of_value hq

/-- A sum is at most twice as large as its parts, rounding included. -/
theorem Within.add (hx : Within k x) (hy : Within k y) (hk : k + 1 ≤ 127) :
    Within (k + 1) (x + y) := by
  obtain ⟨p, hp, hpk⟩ := hx
  obtain ⟨q, hq, hqk⟩ := hy
  refine within_of_rank hk (rank_add hp hq) ?_
  calc |p + q| ≤ |p| + |q| := abs_add_le p q
    _ ≤ 2 ^ k + 2 ^ k := add_le_add hpk hqk
    _ = 2 ^ (k + 1) := by ring

theorem Within.sub (hx : Within k x) (hy : Within k y) (hk : k + 1 ≤ 127) :
    Within (k + 1) (x - y) := by
  obtain ⟨p, hp, hpk⟩ := hx
  obtain ⟨q, hq, hqk⟩ := hy
  refine within_of_rank hk (rank_sub hp hq) ?_
  calc |p - q| ≤ |p| + |q| := abs_sub p q
    _ ≤ 2 ^ k + 2 ^ k := add_le_add hpk hqk
    _ = 2 ^ (k + 1) := by ring

/-- The bounds of the factors of a product add up. -/
theorem Within.mul (hx : Within j x) (hy : Within k y) (hk : j + k ≤ 127) :
    Within (j + k) (x * y) := by
  obtain ⟨p, hp, hpj⟩ := hx
  obtain ⟨q, hq, hqk⟩ := hy
  refine within_of_rank hk (rank_mul hp hq) ?_
  calc |p * q| = |p| * |q| := abs_mul p q
    _ ≤ 2 ^ j * 2 ^ k := mul_le_mul hpj hqk (abs_nonneg q) (by positivity)
    _ = 2 ^ (j + k) := (pow_add 2 j k).symm

theorem within_of_bounds (h : 0 ≤ x ∧ x ≤ 1) : Within 0 x := by
  obtain ⟨q, hq, hlow, hhigh⟩ := exists_value_of_le h.1 value_one h.2
  refine ⟨q, hq, ?_⟩
  rw [abs_of_nonneg hlow, pow_zero]
  exact hhigh

/-- A point between two numbers is bounded by them and by the parameter. -/
theorem Within.lerp (ha : Within k a) (hb : Within k b) (ht : Within j t)
    (hjk : j + k + 2 ≤ 127) : Within (j + k + 2) (lerp a b t) := by
  have hdifference : Within (k + 1) (b - a) := hb.sub ha (by omega)
  have hproduct : Within (k + 1 + j) ((b - a) * t) := hdifference.mul ht (by omega)
  exact ((ha.mono (by omega)).add (hproduct.mono (by omega)) (by omega) :
    Within (j + k + 1 + 1) (a + (b - a) * t))

/-- A number is moved into the bounds. -/
theorem clamp_bounds {lo hi : Scalar} (h : lo ≤ hi) (hx : x.rank ≤ top) :
    lo ≤ clamp lo hi x ∧ clamp lo hi x ≤ hi := by
  have hhi := (le_iff.mp h).2
  have hlo : lo.rank ≤ top := (le_iff.mp h).1.trans hhi
  obtain ⟨raised, hraised⟩ : ∃ raised, raised = if x < lo then lo else x := ⟨_, rfl⟩
  have hnumber : lo ≤ raised := by
    rw [hraised]
    split
    · exact le_self hlo
    · rename_i hge
      exact le_of_not_lt hx hlo hge
  simp only [clamp, ← hraised]
  split
  · exact ⟨h, le_self hhi⟩
  · rename_i hge
    exact ⟨hnumber, le_of_not_lt hhi (le_iff.mp hnumber).2 hge⟩

end Scalar

namespace Lattice

variable {x y t : Scalar}

/-! ## The blend -/

/-- The smooth step is a polynomial with small coefficients, so it is bounded wherever its argument
is. -/
theorem within_smoothstep (h : Within 0 t) : Within 3 (smoothstep t) := by
  have htwo : Within 1 2 := ⟨2, value_ofNat 2 (by norm_num), by norm_num⟩
  have hthree : Within 2 3 := ⟨3, value_ofNat 3 (by norm_num), by norm_num⟩
  have hslope : Within 3 (3 - 2 * t) :=
    hthree.sub ((htwo.mul h (by norm_num)).mono (by norm_num)) (by norm_num)
  exact (h.mul h (by norm_num)).mul hslope (by norm_num)

/-- The place within a cell along one axis. -/
theorem within_blend (h : x.isFinite = true) : Within 3 (smoothstep (x - floor x)) :=
  within_smoothstep (within_of_bounds (sub_floor_bounds h))

/-- The lattice has values between zero and one. -/
theorem value_bounds (l : Lattice) (x y t : Int32) : 0 ≤ l.value x y t ∧ l.value x y t ≤ 1 := by
  -- the low 24 bits are a word that is not above the divisor
  refine ratio_bounds (UInt32.le_iff_toNat_le.mpr ?_) (by decide)
  rw [UInt32.toNat_and]
  exact Nat.and_le_right

theorem within_face (l : Lattice) (x y t : Int32) {fx fy : Scalar} (hx : Within 3 fx)
    (hy : Within 3 fy) : Within 10 (l.face x y t fx fy) := by
  have hcorner : ∀ x y t, Within 0 (l.value x y t) := by
    intro x y t
    exact within_of_bounds (l.value_bounds x y t)
  have hedge : ∀ y, Within 5 (lerp (l.value x y t) (l.value (x + 1) y t) fx) := by
    intro y
    exact (hcorner x y t).lerp (hcorner (x + 1) y t) hx (by norm_num)
  exact (hedge y).lerp (hedge (y + 1)) hy (by norm_num)

/-! ## Samples -/

section Finite

variable (l : Lattice) (hx : x.isFinite = true) (hy : y.isFinite = true) (ht : t.isFinite = true)

include hx hy ht

/-- A finite point below `2 ^ 31` along every axis has a value in `[0, 1]`. -/
theorem sample_of_lt (hxlt : x < 2147483648) (hylt : y < 2147483648) (htlt : t < 2147483648) :
    ∃ v, l.sample x y t = .ok v ∧ 0 ≤ v ∧ v ≤ 1 := by
  have hone : (0 : Scalar) ≤ 1 := by decide
  -- no axis is at the end of the 32-bit integers
  have hne : ∀ {z : Scalar}, z.isFinite = true → z < 2147483648 →
      toInt32 (floor z) ≠ Int32.maxValue := by
    intro z hz hlt hmax
    have hge := (toInt32_floor_eq_maxValue_iff hz).mp hmax
    rw [lt_iff] at hlt
    rw [le_iff] at hge
    omega
  -- the blend is finite, and so a number, wherever it lies
  have hnear := l.within_face (toInt32 (floor x)) (toInt32 (floor y)) (toInt32 (floor t))
    (within_blend hx) (within_blend hy)
  have hfar := l.within_face (toInt32 (floor x)) (toInt32 (floor y)) (toInt32 (floor t) + 1)
    (within_blend hx) (within_blend hy)
  have hblend := hnear.lerp hfar (within_blend ht) (by norm_num)
  refine ⟨_, ?_, clamp_bounds hone (isFinite_iff.mp hblend.isFinite).2.le⟩
  simp [sample, hne hx hxlt, hne hy hylt, hne ht htlt]

/-- A finite point from `2 ^ 31` on along some axis has no cell. -/
theorem sample_eq_error (h : 2147483648 ≤ x ∨ 2147483648 ≤ y ∨ 2147483648 ≤ t) :
    l.sample x y t = .error .addOverflow := by
  rw [← toInt32_floor_eq_maxValue_iff hx, ← toInt32_floor_eq_maxValue_iff hy,
    ← toInt32_floor_eq_maxValue_iff ht] at h
  simp [sample, h, or_assoc]

end Finite

/-- **Noise at finite points.** Whatever the seed, a finite point below `2 ^ 31` along every axis,
however far below, has a value in `[0, 1]`. Every other finite point fails, and only because there
is no opposite corner. -/
theorem sample_finite (seed : UInt64) (hx : x.isFinite = true) (hy : y.isFinite = true)
    (ht : t.isFinite = true) :
    (x < 2147483648 ∧ y < 2147483648 ∧ t < 2147483648 →
      ∃ v, (ofSeed seed).sample x y t = .ok v ∧ 0 ≤ v ∧ v ≤ 1) ∧
    (2147483648 ≤ x ∨ 2147483648 ≤ y ∨ 2147483648 ≤ t →
      (ofSeed seed).sample x y t = .error .addOverflow) := by
  constructor
  · rintro ⟨hxlt, hylt, htlt⟩
    exact sample_of_lt (ofSeed seed) hx hy ht hxlt hylt htlt
  · intro hge
    exact sample_eq_error (ofSeed seed) hx hy ht hge

/-- The last point before the end of the integers has a value, and so has one far beyond their
other end. -/
theorem sample_finite_ends :
    (∃ v, (ofSeed 5).sample 2147483520 0 0 = .ok v ∧ 0 ≤ v ∧ v ≤ 1) ∧
    (∃ v, (ofSeed 5).sample (-3e38) 0.5 0 = .ok v ∧ 0 ≤ v ∧ v ≤ 1) ∧
    (ofSeed 5).sample 0 0.5 3e38 = .error .addOverflow := by
  refine ⟨?_, ?_, ?_⟩
  · exact (sample_finite 5 (by decide) (by decide) (by decide)).1 (by decide)
  · exact (sample_finite 5 (by decide +kernel) (by decide) (by decide)).1 (by decide +kernel)
  · exact (sample_finite 5 (by decide) (by decide) (by decide +kernel)).2 (by decide +kernel)

/-- To be finite is not enough for a value. -/
theorem sample_overflow : ¬ ∀ (seed : UInt64) (x y t : Scalar), x.isFinite = true →
    y.isFinite = true → t.isFinite = true →
      ∃ v, (ofSeed seed).sample x y t = .ok v ∧ 0 ≤ v ∧ v ≤ 1 := by
  intro h
  obtain ⟨v, hv, -⟩ := h 0 2147483648 0 0 (by decide) (by decide) (by decide)
  have herror : (ofSeed 0).sample 2147483648 0 0 = .error .addOverflow := by rfl
  rw [herror] at hv
  cases hv

end Lattice

end PlantGrowth
