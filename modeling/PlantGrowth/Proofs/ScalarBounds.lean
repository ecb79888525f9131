import PlantGrowth.Proofs.ScalarArithmetic
import PlantGrowth.Chance.Source

/-!
# Signs and bounds of scalars

Laws of scalars that are not negative, infinity included: sums of them are not negative
(`add_nonneg`), products of positive ones are numbers (`mul_nonneg`) and grow with their factors
(`mul_le_mul_left`), and a positive product with a positive factor has two (`pos_of_mul_pos`).
For finite scalars each follows from the rational numbers they stand for; `value_or_infinite`
splits off infinity.

Scalars in `[0, 1]` come from rounding rationals there (`unit_bounds_of_rank`), such as the quotient
of a word and a greater one (`ratio_bounds`), and a share of a finite number is finite
(`exists_value_share`).
-/

set_option autoImplicit false

namespace PlantGrowth.Scalar

open Float.Model (Format UnpackedFloat)
open Float.Model.UnpackedFloat
open Rounding

variable {x y z : Scalar} {p q : ℚ}

/-! ## Numbers that are not negative -/

theorem nonneg_iff : 0 ≤ x ↔ 0 ≤ x.rank ∧ x.rank ≤ top := le_iff

theorem pos_iff : 0 < x ↔ 0 < x.rank ∧ x.rank ≤ top := lt_iff

theorem le_self (h : x.rank ≤ top) : x ≤ x := le_iff.mpr ⟨le_rfl, h⟩

theorem le_trans (h : x ≤ y) (h' : y ≤ z) : x ≤ z := by
  rw [le_iff] at *
  exact ⟨h.1.trans h'.1, h'.2⟩

theorem le_of_not_lt (hx : x.rank ≤ top) (hy : y.rank ≤ top) (h : ¬ x < y) : y ≤ x := by
  rw [lt_iff] at h
  exact le_iff.mpr ⟨not_lt.mp fun hlt => h ⟨hlt, hy⟩, hx⟩

theorem nonneg_of_pos (h : 0 < x) : 0 ≤ x := by
  rw [pos_iff] at h
  exact nonneg_iff.mpr ⟨h.1.le, h.2⟩

theorem value_zero : value? 0 = some 0 := rfl

theorem value_one : value? 1 = some 1 := value_toFloat32 (n := 1) (by decide)

/-- Literals of at most 23 bits stand for themselves. -/
theorem value_ofNat (n : ℕ) [n.AtLeastTwo] (h : n < 2 ^ 23) :
    value? (OfNat.ofNat n) = some (OfNat.ofNat n) := by
  have hnat : n.toUInt64.toNat = n := UInt64.toNat_ofNat_of_lt' (h.trans (by decide))
  have hrank := rank_normalize n.toUInt64.toNat 0 .positive
  rw [zpow_zero, mul_one, Int.cast_natCast] at hrank
  have hword : rank n.toUInt64.toFloat32 = nearest n := hrank.trans (by rw [hnat])
  obtain ⟨u, hu⟩ := exists_denotes_natCast (h.trans (by norm_num))
  -- a literal is made of a word and the power of ten that is one
  have hliteral : (OfNat.ofNat n : Scalar) = n.toUInt64.toFloat32 * 1 := dif_pos ⟨h, by decide⟩
  refine value_of_rank hu ?_
  rw [hliteral, rank_mul (value_of_rank hu hword) value_one, mul_one]
  rfl

theorem value_nonneg_iff (hx : x.value? = some q) : 0 ≤ x ↔ 0 ≤ q := value_le_iff value_zero hx

theorem value_pos_iff (hx : x.value? = some q) : 0 < x ↔ 0 < q := by
  rw [value_lt_iff value_zero hx]

/-- A positive number is read with the positive sign. -/
theorem unpack_of_pos (h : 0 < x) :
    (∃ m e hm, x.toModel.unpack = .finite .positive m e hm) ∨
      x.toModel.unpack = .infinity .positive := by
  obtain ⟨hpos, hle⟩ := pos_iff.mp h
  have hread := reads_of_rank_le hle
  generalize x.toModel.unpack = u at hread
  generalize x.rank = r at *
  cases hread with
  | zero s => omega
  | @finite s m e hm hmantissa hlt =>
    have := rankAt_pos hm hmantissa
    cases s with
    | negative =>
      simp only [Sign.apply] at hpos
      omega
    | positive => exact Or.inl ⟨m, e, hm, rfl⟩
  | infinity s =>
    cases s with
    | negative => cases hpos
    | positive => exact Or.inr rfl

/-- A number that is not negative is a rational, or infinite. -/
theorem value_or_infinite (h : 0 ≤ x) :
    (∃ q, 0 ≤ q ∧ x.value? = some q) ∨ x.toModel.unpack = .infinity .positive := by
  by_cases hfinite : x.isFinite = true
  · obtain ⟨q, hq⟩ := exists_value hfinite
    exact Or.inl ⟨q, (value_nonneg_iff hq).mp h, hq⟩
  · have htop := top_pos
    have hrank := nonneg_iff.mp h
    have hbound := hfinite
    rw [isFinite_iff] at hbound
    refine Or.inr ((unpack_of_pos (pos_iff.mpr ⟨by omega, hrank.2⟩)).resolve_left ?_)
    rintro ⟨m, e, hm, hx⟩
    have hunpack : x.isFinite = x.toModel.unpack.isFinite := rfl
    rw [hunpack, hx] at hfinite
    exact hfinite rfl

theorem rank_infinity (h : x.toModel.unpack = .infinity .positive) : x.rank = top := by
  rw [← pack_unpack x, h]
  rfl

/-- What lies between zero and a rational is a rational. -/
theorem exists_value_of_le (hx : 0 ≤ x) (hy : y.value? = some q) (h : x ≤ y) :
    ∃ p, x.value? = some p ∧ 0 ≤ p ∧ p ≤ q := by
  rcases value_or_infinite hx with ⟨p, hp, hxp⟩ | hinf
  · exact ⟨p, hxp, hp, (value_le_iff hxp hy).mp h⟩
  · have hlt := (rank_lt_top hy).2
    rw [le_iff, rank_infinity hinf] at h
    omega

/-- Infinity swallows what is added to it. -/
theorem rank_add_infinite (hx : x.toModel.unpack = .infinity .positive) (hy : 0 ≤ y) :
    (x + y).rank = top ∧ (y + x).rank = top := by
  have hadd : x + y = .ofModel (.pack (.add Format.binary32 x.toModel.unpack y.toModel.unpack)) :=
    rfl
  have hadd' : y + x = .ofModel (.pack (.add Format.binary32 y.toModel.unpack x.toModel.unpack)) :=
    rfl
  rw [hadd, hadd', hx]
  rcases value_or_infinite hy with ⟨q, -, hq⟩ | hy
  · have hdenotes := denotes_unpack hq
    generalize y.toModel.unpack = u at hdenotes
    cases hdenotes with
    | zero s => exact ⟨rfl, rfl⟩
    | finite s hm hmantissa hlt => exact ⟨rfl, rfl⟩
  · rw [hy]
    exact ⟨rfl, rfl⟩

/-- Infinity swallows the positive factors beside it. -/
theorem rank_mul_infinite (hx : x.toModel.unpack = .infinity .positive) (hy : 0 < y) :
    (x * y).rank = top ∧ (y * x).rank = top := by
  have hmul : x * y = .ofModel (.pack (.mul Format.binary32 x.toModel.unpack y.toModel.unpack)) :=
    rfl
  have hmul' : y * x = .ofModel (.pack (.mul Format.binary32 y.toModel.unpack x.toModel.unpack)) :=
    rfl
  rw [hmul, hmul', hx]
  rcases unpack_of_pos hy with ⟨m, e, hm, hy⟩ | hy
  · rw [hy]
    exact ⟨rfl, rfl⟩
  · rw [hy]
    exact ⟨rfl, rfl⟩

/-- Infinity is infinitely far away from every finite number. -/
theorem rank_sub_infinite (hx : x.toModel.unpack = .infinity .positive)
    (hy : y.isFinite = true) : (x - y).rank = top ∧ (y - x).rank = -top := by
  have hsub : x - y = .ofModel (.pack (.sub Format.binary32 x.toModel.unpack y.toModel.unpack)) :=
    rfl
  have hsub' : y - x = .ofModel (.pack (.sub Format.binary32 y.toModel.unpack x.toModel.unpack)) :=
    rfl
  obtain ⟨q, hq⟩ := exists_value hy
  have hdenotes := denotes_unpack hq
  rw [hsub, hsub', hx]
  generalize y.toModel.unpack = u at hdenotes
  cases hdenotes with
  | zero s => exact ⟨rfl, rfl⟩
  | finite s hm hmantissa hlt => exact ⟨rfl, rfl⟩

theorem nonneg_of_rank (hx : x.rank = nearest q) (hq : 0 ≤ q) : 0 ≤ x :=
  le_of_rank (rank_eq_nearest value_zero) hx hq

theorem nonneg_of_rank_top (hx : x.rank = top) : 0 ≤ x := by
  rw [nonneg_iff, hx]
  exact ⟨top_pos.le, le_rfl⟩

theorem add_nonneg (hx : 0 ≤ x) (hy : 0 ≤ y) : 0 ≤ x + y := by
  rcases value_or_infinite hx with ⟨p, hp, hxp⟩ | hinf
  · rcases value_or_infinite hy with ⟨q, hq, hyq⟩ | hinf
    · exact nonneg_of_rank (rank_add hxp hyq) (Rat.add_nonneg hp hq)
    · exact nonneg_of_rank_top (rank_add_infinite hinf hx).2
  · exact nonneg_of_rank_top (rank_add_infinite hinf hy).1

/-- A product of positive numbers is a number, though it may be rounded down to zero. -/
theorem mul_nonneg (hx : 0 < x) (hy : 0 < y) : 0 ≤ x * y := by
  rcases value_or_infinite (nonneg_of_pos hx) with ⟨p, hp, hxp⟩ | hinf
  · rcases value_or_infinite (nonneg_of_pos hy) with ⟨q, hq, hyq⟩ | hinf
    · exact nonneg_of_rank (rank_mul hxp hyq) (Rat.mul_nonneg hp hq)
    · exact nonneg_of_rank_top (rank_mul_infinite hinf hx).2
  · exact nonneg_of_rank_top (rank_mul_infinite hinf hy).1

/-- A greater factor does not give a smaller product. -/
theorem mul_le_mul_left (hx : 0 < x) (hy : 0 < y) (h : y ≤ z) : x * y ≤ x * z := by
  have hz : 0 < z := by
    rw [pos_iff] at hy ⊢
    rw [le_iff] at h
    exact ⟨hy.1.trans_le h.1, h.2⟩
  have hle : (x * y).rank ≤ top := (nonneg_iff.mp (mul_nonneg hx hy)).2
  have hle' : (x * z).rank ≤ top := (nonneg_iff.mp (mul_nonneg hx hz)).2
  rw [le_iff, and_iff_left hle']
  rcases value_or_infinite (nonneg_of_pos hx) with ⟨p, hp, hxp⟩ | hinf
  · rcases value_or_infinite (nonneg_of_pos hz) with ⟨r, hr, hzr⟩ | hinf
    · obtain ⟨q, hyq, -, hqr⟩ := exists_value_of_le (nonneg_of_pos hy) hzr h
      rw [rank_mul hxp hyq, rank_mul hxp hzr]
      exact nearest_mono (mul_le_mul_of_nonneg_left hqr hp)
    · rwa [(rank_mul_infinite hinf hx).2]
  · rwa [(rank_mul_infinite hinf hz).1]

/-- What is no number gives no product. -/
theorem top_lt_rank_mul (h : top < x.rank) (y : Scalar) : top < (x * y).rank := by
  have hmul : x * y = .ofModel (.pack (.mul .binary32 x.toModel.unpack y.toModel.unpack)) := rfl
  rcases unpack_cases x with ⟨hx, -⟩ | hread
  · rw [hmul, hx]
    exact rank_pack_notANumber
  · exact absurd h (not_lt.mpr hread.le_top.2)

/-- A number that is not positive is read as zero or with the negative sign. -/
theorem unpack_of_not_pos (h : ¬ 0 < x) (hx : x.rank ≤ top) :
    (∃ s, x.toModel.unpack = .zero s) ∨ (∃ m e hm, x.toModel.unpack = .finite .negative m e hm) ∨
      x.toModel.unpack = .infinity .negative := by
  have htop := top_pos
  have hrank : ¬ 0 < x.rank := fun hpos => h (pos_iff.mpr ⟨hpos, hx⟩)
  have hread := reads_of_rank_le hx
  generalize x.toModel.unpack = u at hread
  generalize x.rank = r at *
  cases hread with
  | zero s => exact Or.inl ⟨s, rfl⟩
  | @finite s m e hm hmantissa hlt =>
    cases s with
    | negative => exact Or.inr (Or.inl ⟨m, e, hm, rfl⟩)
    | positive => exact absurd (rankAt_pos hm hmantissa) hrank
  | infinity s =>
    cases s with
    | negative => exact Or.inr (Or.inr rfl)
    | positive => exact absurd htop hrank

/-- Beside a positive factor, only a positive one gives a positive product. -/
theorem pos_of_mul_pos (hy : 0 < y) (h : 0 < x * y) : 0 < x := by
  obtain ⟨hpos, hle⟩ := pos_iff.mp h
  have hmul : x * y = .ofModel (.pack (.mul Format.binary32 x.toModel.unpack y.toModel.unpack)) :=
    rfl
  have hnumber : x.rank ≤ top := by
    by_contra hnan
    exact absurd hle (not_le.mpr (top_lt_rank_mul (not_le.mp hnan) y))
  by_contra hneg
  -- only two finite factors are multiplied as rationals
  by_cases hfinite : x.isFinite = true ∧ y.isFinite = true
  · obtain ⟨p, hp⟩ := exists_value hfinite.1
    obtain ⟨q, hq⟩ := exists_value hfinite.2
    rw [value_pos_iff hp, not_lt] at hneg
    have hq0 := (value_pos_iff hq).mp hy
    have hmono := nearest_mono (mul_nonpos_of_nonpos_of_nonneg hneg hq0.le)
    rw [rank_mul hp hq] at hpos
    rw [nearest_zero] at hmono
    omega
  · have hinfinite : ¬ (x.toModel.unpack.isFinite = true ∧ y.toModel.unpack.isFinite = true) :=
      hfinite
    rw [hmul] at hpos hle
    rcases unpack_of_not_pos hneg hnumber with ⟨s, hx⟩ | ⟨m, e, hm, hx⟩ | hx <;>
      rcases unpack_of_pos hy with ⟨n, d, hn, hy⟩ | hy <;> rw [hx, hy] at hpos hle hinfinite
    · exact hinfinite ⟨rfl, rfl⟩
    · exact absurd hle (not_le.mpr rank_pack_notANumber)
    · exact hinfinite ⟨rfl, rfl⟩
    · cases hpos
    · cases hpos
    · cases hpos

/-- The larger of a number and zero, or zero for what is no number, is not negative. -/
theorem nonneg_maxNum_zero (x : Scalar) : 0 ≤ maxNum x 0 := by
  have hzero : (0 : Scalar) ≤ 0 := by decide
  unfold maxNum
  split
  · exact hzero
  · rename_i hnan
    rw [isNaN_iff, not_lt] at hnan
    split
    · exact hzero
    · rename_i hneg
      exact le_of_not_lt hnan (by decide) hneg

/-- What is rounded from `[0, 1]` stays there. -/
theorem unit_bounds_of_rank (hx : x.rank = nearest q) (hlow : 0 ≤ q) (hhigh : q ≤ 1) :
    0 ≤ x ∧ x ≤ 1 :=
  ⟨nonneg_of_rank hx hlow, le_of_rank hx (rank_eq_nearest value_one) hhigh⟩

/-- A share of a finite number that is not negative is another one. -/
theorem exists_value_share (hx : x.value? = some p) (hp0 : 0 ≤ p) (hp1 : p ≤ 1)
    (hy : y.value? = some q) (hq0 : 0 ≤ q) :
    ∃ r, (x * y).value? = some r ∧ 0 ≤ r ∧ nearest r = nearest (p * q) := by
  have hrank := rank_mul hx hy
  have hle : x * y ≤ y := le_of_rank hrank (rank_eq_nearest hy) (mul_le_of_le_one_left hq0 hp1)
  have hnonneg : 0 ≤ x * y := nonneg_of_rank hrank (Rat.mul_nonneg hp0 hq0)
  obtain ⟨r, hr, hr0, -⟩ := exists_value_of_le hnonneg hy hle
  exact ⟨r, hr, hr0, by rw [← rank_eq_nearest hr, hrank]⟩

/-! ## Words as scalars -/

theorem exists_value_toFloat32 (k : UInt32) :
    ∃ q, value? k.toFloat32 = some q ∧ 0 ≤ q ∧ nearest q = nearest k.toNat := by
  have hk : (k.toNat : ℚ) < 2 ^ 32 := by exact_mod_cast k.toNat_lt
  have hfinite : k.toFloat32.isFinite = true := by
    rw [isFinite_iff, rank_toFloat32]
    apply nearest_lt_top
    rw [abs_of_nonneg (Nat.cast_nonneg _)]
    exact hk.trans (by norm_num)
  obtain ⟨q, hq⟩ := exists_value hfinite
  refine ⟨q, hq, ?_, by rw [← rank_eq_nearest hq, rank_toFloat32]⟩
  exact (value_nonneg_iff hq).mp (nonneg_of_rank (rank_toFloat32 k) (Nat.cast_nonneg _))

/-- Words are rounded on conversion, which keeps their order. -/
theorem toFloat32_le {k l : UInt32} (h : k ≤ l) : k.toFloat32 ≤ l.toFloat32 := by
  refine le_of_rank (rank_toFloat32 k) (rank_toFloat32 l) ?_
  exact_mod_cast UInt32.le_iff_toNat_le.mp h

/-- A word that is not zero is at least one as a scalar. -/
theorem exists_value_toFloat32_of_pos {k : UInt32} (h : 0 < k) :
    ∃ q, value? k.toFloat32 = some q ∧ 1 ≤ q := by
  obtain ⟨q, hq, -, -⟩ := exists_value_toFloat32 k
  have hone : value? (1 : UInt32).toFloat32 = some 1 := value_one
  have hle : (1 : UInt32) ≤ k := by
    rw [UInt32.lt_iff_toNat_lt] at h
    exact UInt32.le_iff_toNat_le.mpr h
  exact ⟨q, hq, (value_le_iff hone hq).mp (toFloat32_le hle)⟩

/-- Words relative to one that is not below them are in `[0, 1]`. -/
theorem ratio_bounds {n d : UInt32} (h : n ≤ d) (hd : 0 < d) :
    0 ≤ n.toFloat32 / d.toFloat32 ∧ n.toFloat32 / d.toFloat32 ≤ 1 := by
  obtain ⟨p, hp, hp0, -⟩ := exists_value_toFloat32 n
  obtain ⟨q, hq, hq1⟩ := exists_value_toFloat32_of_pos hd
  have hpq : p ≤ q := (value_le_iff hp hq).mp (toFloat32_le h)
  have hq0 : 0 < q := by linarith
  apply unit_bounds_of_rank (rank_div hp hq hq0.ne')
  · exact div_nonneg hp0 hq0.le
  · exact (div_le_one hq0).mpr hpq

end PlantGrowth.Scalar
