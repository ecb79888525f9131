import PlantGrowth.Proofs.ScalarBounds

/-!
# Whole parts of scalars

`Scalar.floor` gives the greatest integer below a finite scalar exactly (`value_floor`): a scalar
from `2 ^ 23` on is an integer already, and a smaller integer has few enough bits to be converted
without rounding. The distance to it is therefore a number in `[0, 1]` (`sub_floor_bounds`).

`Scalar.toInt32` takes an integral scalar to that integer, or to the nearest bound of 32-bit
integers (`toInt_toInt32`). The greatest 32-bit integer has more bits than a scalar, so it is only
ever a bound: a whole part is taken to it from `2 ^ 31` on (`toInt32_floor_eq_maxValue_iff`).
-/

set_option autoImplicit false

namespace PlantGrowth.Scalar

open Float.Model (Format UnpackedFloat)
open Float.Model.UnpackedFloat
open Rounding

variable {x y : Scalar} {p q : ℚ}

/-! ## Integers -/

/-- From `2 ^ 23` on the last bit of a mantissa is worth at least one. -/
theorem exists_intCast_of_le_abs (h : x.value? = some q) (hq : 2 ^ 23 ≤ |q|) :
    ∃ k : ℤ, q = k := by
  obtain ⟨m, e, hm, -, habs⟩ := (denotes_unpack h).exists_mantissa
  have he : 0 ≤ e := by
    by_contra hneg
    -- with a negative exponent 24 bits do not reach `2 ^ 23`
    have hpow : (2 : ℚ) ^ e ≤ 2 ^ (-1 : ℤ) := zpow_le_zpow_right₀ (by norm_num) (by omega)
    have hlt : |q| < 2 ^ 24 * 2 ^ e := habs ▸ hm.isExponentOf.lt
    norm_num at hpow
    linarith
  lift e to ℕ using he
  rw [zpow_natCast] at habs
  rcases abs_choice q with hsign | hsign <;> rw [hsign] at habs
  · exact ⟨m * 2 ^ e, by push_cast; exact habs⟩
  · exact ⟨-(m * 2 ^ e), by push_cast; linarith⟩

theorem value_beq_iff (hx : x.value? = some p) (hy : y.value? = some q) :
    (x == y) = true ↔ p = q := by
  have hxtop := (rank_lt_top hx).2
  have hytop := (rank_lt_top hy).2
  have hle := value_le_iff hx hy
  have hge := value_le_iff hy hx
  rw [le_iff, and_iff_left hytop.le] at hle
  rw [le_iff, and_iff_left hxtop.le] at hge
  rw [beq_iff, and_iff_left hytop.le, le_antisymm_iff, hle, hge, ← le_antisymm_iff]

/-! ## Conversion to words -/

theorem Denotes.abs {u : UnpackedFloat} (h : Denotes u q) : Denotes u.abs |q| := by
  cases h with
  | zero s =>
    rw [abs_zero]
    exact .zero .positive
  | @finite s m e hm hmantissa hlt =>
    have habs : |((s.apply m : ℤ) : ℚ) * 2 ^ e| = (Sign.positive.apply m : ℤ) * 2 ^ e := by
      rw [abs_mul, abs_of_pos (two_zpow_pos e)]
      cases s <;> simp [Sign.apply]
    rw [habs]
    exact .finite .positive hm hmantissa hlt

theorem value_abs (h : x.value? = some q) : value? x.abs = some |q| :=
  value_of_rank (denotes_unpack h).abs (denotes_unpack h).abs.rank_pack

/-- A conversion to an integer drops what is behind the point. -/
theorem Denotes.toInt_eq_floor {u : UnpackedFloat} (h : Denotes u q) (hq : 0 ≤ q) (lo hi : ℤ) :
    u.toInt lo hi = ⌊q⌋ := by
  cases h with
  | zero s => rw [Int.floor_zero]; rfl
  | @finite s m e hm hmantissa hlt =>
    cases s with
    | negative =>
      have hpos : (0 : ℚ) < m * 2 ^ e := mul_pos (by exact_mod_cast hm) (two_zpow_pos e)
      simp only [Sign.apply] at hq
      push_cast at hq
      linarith
    | positive =>
      -- on the grid of the integers, or of a finer unit from which it is shifted there
      have hvalue := decreaseExponent_value m e 0
      have hexponent := decreaseExponent_snd m e 0
      have hstands := (stands_exact (decreaseExponent m e 0).1).shiftRight
        (0 - (decreaseExponent m e 0).2).toNat
      have hpow : ((decreaseExponent m e 0).1 : ℚ) / 2 ^ (0 - (decreaseExponent m e 0).2).toNat =
          m * 2 ^ e := by
        rw [← hvalue, div_eq_iff (by positivity), mul_assoc, mul_comm ((2 : ℚ) ^ _),
          ← zpow_add_natCast]
        rw [show (decreaseExponent m e 0).2 + ((0 - (decreaseExponent m e 0).2).toNat : ℕ) = 0 by
          omega, zpow_zero, mul_one]
      rw [hpow] at hstands
      exact hstands.floor_eq.symm

theorem toNat_toUInt32 (h : x.value? = some q) (hq : 0 ≤ q) (hlt : q < 2 ^ 32) :
    (x.toUInt32.toNat : ℤ) = ⌊q⌋ := by
  have hword : x.toUInt32 =
      UInt32.ofNatClamp (x.toModel.unpack.toInt 0 (UInt32.size - 1)).toNat := rfl
  have hfloor : 0 ≤ ⌊q⌋ := Int.floor_nonneg.mpr hq
  have hbound : ⌊q⌋ < 2 ^ 32 := Int.floor_lt.mpr (by exact_mod_cast hlt)
  have hsize : ⌊q⌋.toNat < UInt32.size := by
    have : UInt32.size = 2 ^ 32 := rfl
    omega
  rw [hword, (denotes_unpack h).toInt_eq_floor hq, UInt32.ofNatClamp, dif_pos hsize,
    UInt32.toNat_ofNatLT]
  omega

/-! ## The integer below -/

section Small

variable (h : x.value? = some q) (hq : |q| < 2 ^ 23)

include h hq

/-- A small whole part is converted to a word and back without rounding. -/
theorem value_whole : value? x.abs.toUInt32.toFloat32 = some (⌊|q|⌋ : ℚ) := by
  have hword := toNat_toUInt32 (value_abs h) (abs_nonneg q) (hq.trans (by norm_num))
  have hlt : ⌊|q|⌋ < 2 ^ 23 := Int.floor_lt.mpr (by exact_mod_cast hq)
  rw [value_toFloat32 (by omega), ← hword, Int.cast_natCast]

/-- Nor is the next integer rounded. -/
theorem value_whole_add_one :
    value? (x.abs.toUInt32.toFloat32 + 1) = some (⌊|q|⌋ + 1 : ℚ) := by
  have hlt : ⌊|q|⌋ < 2 ^ 23 := Int.floor_lt.mpr (by exact_mod_cast hq)
  obtain ⟨n, hn⟩ := Int.eq_ofNat_of_zero_le (Int.floor_nonneg.mpr (abs_nonneg q))
  obtain ⟨u, hu⟩ := exists_denotes_natCast (n := n + 1) (by omega)
  have hcast : ((n + 1 : ℕ) : ℚ) = ⌊|q|⌋ + 1 := by
    rw [hn]
    push_cast
    rfl
  rw [hcast] at hu
  exact value_of_rank hu (rank_add (value_whole h hq) value_one)

end Small

/-- The whole part below a finite scalar is exact. -/
theorem value_floor (h : x.value? = some q) : (floor x).value? = some (⌊q⌋ : ℚ) := by
  have hbound : value? 8388608 = some (2 ^ 23) := value_toFloat32 (n := 8388608) (by decide)
  unfold floor
  split
  · rename_i hsmall
    rw [value_lt_iff (value_abs h) hbound] at hsmall
    have hwhole := value_whole h hsmall
    simp only [value_beq_iff hwhole (value_abs h), value_lt_iff h value_zero]
    split
    · -- an integer is its own whole part
      rename_i heq
      obtain ⟨k, rfl⟩ : ∃ k : ℤ, q = k := by
        rcases abs_choice q with hsign | hsign
        · exact ⟨⌊|q|⌋, by rw [heq, hsign]⟩
        · exact ⟨-⌊|q|⌋, by push_cast; rw [heq, hsign, neg_neg]⟩
      rw [Int.floor_intCast]
      exact h
    · rename_i hne
      split
      · -- below zero the integer below is one further from zero
        rename_i hneg
        have hstrict : (⌊|q|⌋ : ℚ) < |q| := lt_of_le_of_ne (Int.floor_le _) hne
        have hlt := Int.lt_floor_add_one |q|
        have habs : |q| = -q := abs_of_neg hneg
        have hbelow : ⌊q⌋ = -(⌊|q|⌋ + 1) := by
          rw [Int.floor_eq_iff]
          push_cast
          constructor <;> linarith
        rw [value_neg (value_whole_add_one h hsmall), hbelow]
        push_cast
        rfl
      · rename_i hnonneg
        rw [hwhole, abs_of_nonneg (not_lt.mp hnonneg)]
  · rename_i hlarge
    rw [value_lt_iff (value_abs h) hbound, not_lt] at hlarge
    obtain ⟨k, rfl⟩ := exists_intCast_of_le_abs h hlarge
    rw [Int.floor_intCast]
    exact h

/-- The distance to the whole part below is a number in `[0, 1]`. -/
theorem sub_floor_bounds (h : x.isFinite = true) : 0 ≤ x - floor x ∧ x - floor x ≤ 1 := by
  obtain ⟨q, hq⟩ := exists_value h
  apply unit_bounds_of_rank (rank_sub hq (value_floor hq))
  · exact Int.fract_nonneg q
  · exact (Int.fract_lt_one q).le

/-! ## Conversion to signed integers -/

theorem toInt_toInt32_of_lt {n : UInt32} (h : n.toNat < 2 ^ 31) : n.toInt32.toInt = n.toNat := by
  have hbits : n.toInt32.toInt = n.toBitVec.toInt := rfl
  have hnat : n.toBitVec.toNat = n.toNat := rfl
  rw [hbits, BitVec.toInt_eq_toNat_of_lt (by omega), hnat]

/-- An integral scalar is converted to the nearest 32-bit integer. -/
theorem toInt_toInt32 {k : ℤ} (h : x.value? = some (k : ℚ)) :
    (toInt32 x).toInt = max (-2 ^ 31) (min k (2 ^ 31 - 1)) := by
  have hlow : value? (-2147483648) = some (-2 ^ 31) := by decide +kernel
  have hhigh : value? 2147483648 = some (2 ^ 31) := by decide +kernel
  have hmin : Int32.minValue.toInt = -2 ^ 31 := rfl
  have hmax : Int32.maxValue.toInt = 2 ^ 31 - 1 := rfl
  have hlow_iff : (k : ℚ) ≤ -2 ^ 31 ↔ k ≤ -2 ^ 31 := by exact_mod_cast Iff.rfl
  have hhigh_iff : (2 ^ 31 : ℚ) ≤ k ↔ 2 ^ 31 ≤ k := by exact_mod_cast Iff.rfl
  unfold toInt32
  simp only [value_lt_iff h value_zero, value_le_iff h hlow, value_le_iff hhigh h,
    Int.cast_lt_zero, hlow_iff, hhigh_iff]
  split
  · -- the absolute value is converted, and its sign put back
    rename_i hneg
    split
    · rename_i hle
      omega
    · rename_i hgt
      have habs : |(k : ℚ)| = (-k : ℤ) := by
        rw [abs_of_neg (Int.cast_lt_zero.mpr hneg), Int.cast_neg]
      have hword := toNat_toUInt32 (value_abs h) (abs_nonneg _) (by
        rw [habs]
        exact_mod_cast (by omega : -k < 2 ^ 32))
      rw [habs, Int.floor_intCast] at hword
      rw [Int32.toInt_neg, toInt_toInt32_of_lt (by omega)]
      simp only [Int.bmod]
      omega
  · rename_i hnonneg
    split
    · rename_i hge
      omega
    · rename_i hlt
      have hword := toNat_toUInt32 h (by exact_mod_cast not_lt.mp hnonneg)
        (by exact_mod_cast (by omega : k < 2 ^ 32))
      rw [Int.floor_intCast] at hword
      rw [toInt_toInt32_of_lt (by omega)]
      omega

/-- No scalar stands for the greatest 32-bit integer, or for anything close below `2 ^ 31`. -/
theorem le_of_lt_two_pow (h : x < 2147483648) : x ≤ 2147483520 := by
  have hrank : rank 2147483648 = rank 2147483520 + 1 := by decide
  have hle : rank 2147483520 ≤ top := by decide
  rw [lt_iff, hrank] at h
  exact le_iff.mpr ⟨by omega, hle⟩

theorem toInt32_floor_eq_maxValue_iff (h : x.isFinite = true) :
    toInt32 (floor x) = Int32.maxValue ↔ 2147483648 ≤ x := by
  have hhigh : value? 2147483648 = some (2 ^ 31) := by decide +kernel
  have hbelow : value? 2147483520 = some 2147483520 := by decide +kernel
  have hmax : Int32.maxValue.toInt = 2 ^ 31 - 1 := rfl
  obtain ⟨q, hq⟩ := exists_value h
  rw [← Int32.toInt_inj, toInt_toInt32 (value_floor hq), hmax, value_le_iff hhigh hq]
  constructor
  · intro hbound
    -- a scalar below `2 ^ 31` has a whole part well below the greatest integer
    by_contra hlt
    have hle := le_of_lt_two_pow ((value_lt_iff hq hhigh).mpr (not_le.mp hlt))
    rw [value_le_iff hq hbelow] at hle
    have hfloor : ((2 ^ 31 - 1 : ℤ) : ℚ) ≤ ⌊q⌋ := by
      exact_mod_cast (by omega : (2 ^ 31 - 1 : ℤ) ≤ ⌊q⌋)
    have := Int.floor_le q
    push_cast at hfloor
    linarith
  · intro hge
    have : (2 ^ 31 : ℤ) ≤ ⌊q⌋ := Int.le_floor.mpr (by exact_mod_cast hge)
    omega

end PlantGrowth.Scalar
