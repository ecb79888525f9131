import PlantGrowth.Proofs.ScalarOrder
import PlantGrowth.Proofs.ExactValue

/-!
# Arithmetic of scalars

A finite scalar stands for a rational number, `value?`. Sums, differences, products and quotients of
finite scalars have the rank of the number nearest to the exact result (`rank_add`, `rank_sub`,
`rank_mul`, `rank_div`), and finite scalars are ordered as the numbers they stand for
(`value_le_iff`, `value_lt_iff`). A result that needs no rounding is exact (`value_of_rank`), and
integers of at most 24 bits need none (`exists_denotes_natCast`).
Together with `Rounding.nearest_mono` this turns inequalities between rationals into inequalities
between computed scalars.

The laws are proved on scalars taken apart into sign, mantissa and exponent. `Denotes` ties such a
scalar to its number: a sum is one of integers once both are on the grid of the finer unit, and the
product and the quotient of two mantissas keep enough bits for one rounding.
-/

set_option autoImplicit false

namespace PlantGrowth.Scalar

open Float.Model (Format UnpackedFloat totalExponent)
open Float.Model.UnpackedFloat
open Rounding

variable {x y : Scalar}

/-! ## Finite numbers -/

/-- The rational number for which a finite scalar stands. -/
inductive Denotes : UnpackedFloat → ℚ → Prop
  | zero (s : Sign) : Denotes (.zero s) 0
  | finite (s : Sign) {m : ℕ} {e : ℤ} (hm : 0 < m) : IsMantissa m e → rankAt m e < top →
      Denotes (.finite s m e hm) (s.apply m * 2 ^ e)

variable {p q : ℚ}

theorem denotes_unpack (h : x.value? = some q) : Denotes x.toModel.unpack q := by
  unfold value? at h
  rcases unpack_cases x with ⟨hx, -⟩ | hread
  · rw [hx] at h
    cases h
  · generalize x.toModel.unpack = u at *
    generalize x.rank = r at hread
    cases hread with
    | zero s =>
      cases h
      exact .zero s
    | finite s hm hmantissa hlt =>
      cases h
      exact .finite s hm hmantissa hlt
    | infinity s => cases h

theorem nearest_mantissa (s : Sign) {m : ℕ} {e : ℤ} (h : IsMantissa m e) :
    nearest (s.apply m * 2 ^ e) = s.apply (min (rankAt m e) top) := by
  have hvalue : (0 : ℚ) ≤ m * 2 ^ e := h.value_nonneg
  have hrank : rankOf ((m : ℚ) * 2 ^ e) = rankAt m e := rankOf_mantissa h
  rw [apply_mul, Int.cast_mul, mul_assoc, Int.cast_natCast, nearest_apply s hvalue, hrank]

/-- A finite scalar is where the number for which it stands is rounded to. -/
theorem Denotes.rank_pack {u : UnpackedFloat} (h : Denotes u q) :
    rank (.ofModel (.pack u)) = nearest q := by
  cases h with
  | zero s => rw [rank_pack_zero, nearest_zero]
  | finite s hm hmantissa hlt => rw [rank_pack_finite s hm hmantissa, nearest_mantissa s hmantissa]

theorem pack_unpack (x : Scalar) : .ofModel (.pack x.toModel.unpack) = x := Float32.ofBits_toBits x

theorem rank_eq_nearest (h : x.value? = some q) : x.rank = nearest q := by
  have hrank := (denotes_unpack h).rank_pack
  rwa [pack_unpack] at hrank

theorem neg_apply (s : Sign) (k : ℤ) : (-s).apply k = -s.apply k := by
  cases s
  · exact (neg_neg k).symm
  · rfl

theorem Denotes.neg {u : UnpackedFloat} (h : Denotes u q) : Denotes u.neg (-q) := by
  cases h with
  | zero s =>
    rw [neg_zero]
    exact .zero (-s)
  | finite s hm hmantissa hlt =>
    rw [← neg_mul, ← Int.cast_neg, ← neg_apply]
    exact .finite (-s) hm hmantissa hlt

/-- A signed mantissa on a finer grid. -/
theorem signed_decrease (s : Sign) (m : ℕ) {e t : ℤ} (h : t ≤ e) :
    ((s.apply (decreaseExponent m e t).1 : ℤ) : ℚ) * 2 ^ t = (s.apply m : ℤ) * 2 ^ e := by
  have hvalue := decreaseExponent_value m e t
  rw [decreaseExponent_snd, min_eq_right h] at hvalue
  rw [apply_mul, Int.cast_mul, mul_assoc, Int.cast_natCast, hvalue, apply_mul s m, Int.cast_mul,
    mul_assoc, Int.cast_natCast]

theorem Denotes.rank_add {u v : UnpackedFloat} (hu : Denotes u p) (hv : Denotes v q) :
    rank (.ofModel (.pack (u.add Format.binary32 v))) = nearest (p + q) := by
  cases hu with
  | zero s =>
    rw [zero_add]
    cases hv with
    | zero s' =>
      rw [nearest_zero]
      cases s <;> cases s' <;> rfl
    | finite s' hn hn' hlt' => exact (Denotes.finite s' hn hn' hlt').rank_pack
  | @finite s m d hm hm' hlt =>
    cases hv with
    | zero s' =>
      rw [add_zero]
      exact (Denotes.finite s hm hm' hlt).rank_pack
    | @finite s' n e hn hn' hlt' =>
      -- both on the grid of the finer unit, where the sum is one of integers
      have hadd : UnpackedFloat.add Format.binary32 (.finite s m d hm) (.finite s' n e hn) =
          normalize Format.binary32 (s.apply (decreaseExponent m d (min d e)).1 +
            s'.apply (decreaseExponent n e (min d e)).1) (min d e) .positive := rfl
      rw [hadd, rank_normalize, Int.cast_add, add_mul, signed_decrease s m (min_le_left d e),
        signed_decrease s' n (min_le_right d e)]

/-- To subtract is to add the negative. -/
theorem sub_eq_add (u v : UnpackedFloat) :
    u.sub Format.binary32 v = u.add Format.binary32 v.neg := by
  cases u with
  | notANumber => cases v <;> rfl
  | infinity s => cases v <;> rfl
  | zero s => cases v <;> rfl
  | finite s m e hm =>
    cases v with
    | notANumber => rfl
    | infinity s' => rfl
    | zero s' => rfl
    | finite s' n d hn =>
      have hsub : UnpackedFloat.sub Format.binary32 (.finite s m e hm) (.finite s' n d hn) =
          normalize Format.binary32 (s.apply (decreaseExponent m e (min e d)).1 -
            s'.apply (decreaseExponent n d (min e d)).1) (min e d) .positive := rfl
      rw [hsub, Int.sub_eq_add_neg, ← neg_apply]
      rfl

theorem mul_apply (s s' : Sign) (k l : ℤ) : (s * s').apply (k * l) = s.apply k * s'.apply l := by
  have hsigns : (s * s').apply 1 = s.apply 1 * s'.apply 1 := by
    cases s <;> cases s' <;> rfl
  rw [apply_mul, hsigns, apply_mul s k, apply_mul s' l]
  ring

theorem Denotes.rank_mul {u v : UnpackedFloat} (hu : Denotes u p) (hv : Denotes v q) :
    rank (.ofModel (.pack (u.mul Format.binary32 v))) = nearest (p * q) := by
  cases hu with
  | zero s =>
    rw [zero_mul, nearest_zero]
    cases hv with
    | zero s' => exact rank_pack_zero (s * s')
    | finite s' _ _ _ => exact rank_pack_zero (s * s')
  | @finite s m d hm hm' hlt =>
    cases hv with
    | zero s' =>
      rw [mul_zero, nearest_zero]
      exact rank_pack_zero (s * s')
    | @finite s' n e hn hn' hlt' =>
      have hmul : UnpackedFloat.mul Format.binary32 (.finite s m d hm) (.finite s' n e hn) =
          roundWithAccuracy Format.binary32 (s * s') (m * n) (d + e) .exact := rfl
      have hvalue : ((s.apply m : ℤ) : ℚ) * 2 ^ d * ((s'.apply n : ℤ) * 2 ^ e) =
          ((s * s').apply 1 : ℤ) * ((m * n : ℕ) * 2 ^ (d + e)) := by
        have hsigned := congrArg (Int.cast (R := ℚ)) (mul_apply s s' m n)
        rw [apply_mul] at hsigned
        push_cast at hsigned ⊢
        rw [zpow_add₀ (by norm_num)]
        linear_combination (-(2 : ℚ) ^ d * 2 ^ e) * hsigned
      have hnonneg : (0 : ℚ) ≤ (m * n : ℕ) * 2 ^ (d + e) :=
        mul_nonneg (Nat.cast_nonneg _) (two_zpow_pos _).le
      have hpos : 0 < m * n := Nat.mul_pos hm hn
      have hexponent : d + e ≤ Format.binary32.targetExponent
          (totalExponent (m * n) (d + e)) := by
        have htarget : Format.binary32.targetExponent (totalExponent (m * n) (d + e)) =
            max (((m * n).log2 : ℤ) + 1 + (d + e) - 24) (-149) := rfl
        -- one of the mantissas is full, or both exponents are the least
        have hlog : d + e ≤ -149 ∨ 23 ≤ (m * n).log2 := by
          rw [Nat.le_log2 hpos.ne']
          rcases hm'.ge with hd | hfull
          · rcases hn'.ge with he | hfull
            · omega
            · exact Or.inr (le_trans (by omega) (Nat.le_mul_of_pos_left n hm))
          · exact Or.inr (le_trans (by omega) (Nat.le_mul_of_pos_right m hn))
        omega
      rw [hmul, hvalue, nearest_apply _ hnonneg]
      refine rank_roundWithAccuracy ?_ (isExponentOf_target hpos le_rfl ?_) hexponent
      · rw [mul_div_cancel_right₀ _ (two_zpow_pos _).ne']
        exact stands_exact _
      · have := two_zpow_pos (d + e)
        linarith

/-- The quotient of two mantissas and the accuracy that belongs to it stand for the fraction. -/
theorem stands_fraction (a : ℕ) {b : ℕ} (hb : 0 < b) :
    Stands (.ofMantissaAndAccuracy (a / b) (accuracyOfFraction (a % b) b)) ((a : ℚ) / b) := by
  have hb' : (0 : ℚ) < b := by exact_mod_cast hb
  have hdiv : (a : ℚ) = b * (a / b : ℕ) + (a % b : ℕ) := by
    exact_mod_cast (Nat.div_add_mod a b).symm
  have hquotient : (a : ℚ) / b = (a / b : ℕ) + (a % b : ℕ) / b := by
    rw [div_eq_iff hb'.ne', add_mul, div_mul_cancel₀ _ hb'.ne', mul_comm]
    exact hdiv
  have hlt : ((a % b : ℕ) : ℚ) < b := by exact_mod_cast Nat.mod_lt a hb
  have hnonneg : (0 : ℚ) ≤ (a % b : ℕ) := Nat.cast_nonneg _
  rw [hquotient]
  -- the residual bits are those of the remainder: how its double compares with the divisor
  generalize a % b = r at hlt hnonneg
  generalize a / b = k
  unfold accuracyOfFraction
  split
  · rename_i hzero
    simp [Stands, ExtendedMantissa.ofMantissaAndAccuracy, hzero]
  · rename_i hne
    have hpos : (0 : ℚ) < r / b := by
      have : (0 : ℚ) < r := by exact_mod_cast Nat.pos_of_ne_zero hne
      positivity
    have hone : (r : ℚ) / b < 1 := (div_lt_one hb').mpr hlt
    rcases lt_trichotomy (2 * r) b with h | h | h
    · have hhalf : (r : ℚ) / b < 1 / 2 := by
        rw [div_lt_div_iff₀ hb' (by norm_num)]
        exact_mod_cast (by omega : r * 2 < 1 * b)
      rw [Nat.compare_eq_lt.mpr h]
      exact ⟨by simpa [ExtendedMantissa.ofMantissaAndAccuracy] using hpos,
        by simpa [ExtendedMantissa.ofMantissaAndAccuracy] using hhalf⟩
    · have hhalf : (r : ℚ) / b = 1 / 2 := by
        rw [div_eq_div_iff hb'.ne' (by norm_num)]
        exact_mod_cast (by omega : r * 2 = 1 * b)
      rw [Nat.compare_eq_eq.mpr h]
      simp [Stands, ExtendedMantissa.ofMantissaAndAccuracy, hhalf]
    · have hhalf : (1 : ℚ) / 2 < r / b := by
        rw [div_lt_div_iff₀ (by norm_num) hb']
        exact_mod_cast (by omega : 1 * b < r * 2)
      rw [Nat.compare_eq_gt.mpr h]
      exact ⟨by simpa [ExtendedMantissa.ofMantissaAndAccuracy] using hhalf,
        by simpa [ExtendedMantissa.ofMantissaAndAccuracy] using hone⟩

/-- A quotient is not below the power of two that the lengths of the mantissas promise. -/
theorem zpow_le_quotient {m n : ℕ} (hm : 0 < m) (hn : 0 < n) (d e : ℤ) :
    (2 : ℚ) ^ (totalExponent m d - totalExponent n e - 1) ≤ m * 2 ^ d / (n * 2 ^ e) := by
  have hm' : (2 : ℚ) ^ m.log2 ≤ m := by exact_mod_cast (Nat.le_log2 hm.ne').mp le_rfl
  have hn' : (n : ℚ) ≤ 2 ^ (n.log2 + 1) := by exact_mod_cast (Nat.lt_log2_self (n := n)).le
  have hpos : (0 : ℚ) < n * 2 ^ e := mul_pos (by exact_mod_cast hn) (two_zpow_pos e)
  rw [le_div_iff₀ hpos]
  calc (2 : ℚ) ^ (totalExponent m d - totalExponent n e - 1) * (n * 2 ^ e)
      ≤ 2 ^ (totalExponent m d - totalExponent n e - 1) * (2 ^ (n.log2 + 1) * 2 ^ e) := by
        gcongr
    _ = 2 ^ (d + (m.log2 : ℕ)) := by
        rw [← zpow_natCast 2 (n.log2 + 1), ← zpow_add₀ (by norm_num), ← zpow_add₀ (by norm_num)]
        congr 1
        unfold totalExponent
        push_cast
        ring
    _ = 2 ^ m.log2 * 2 ^ d := zpow_add_natCast d m.log2
    _ ≤ m * 2 ^ d := by gcongr

theorem rank_divCore (s : Sign) {m n : ℕ} (hm : 0 < m) (hn : 0 < n) (d e : ℤ) :
    rank (.ofModel (.pack (roundWithAccuracy Format.binary32 s (divCore Format.binary32 m d n e).1
      (divCore Format.binary32 m d n e).2.1 (divCore Format.binary32 m d n e).2.2))) =
      s.apply (min (rankOf (m * 2 ^ d / (n * 2 ^ e))) top) := by
  have hlow := zpow_le_quotient hm hn d e
  have hq : (0 : ℚ) < m * 2 ^ d / (n * 2 ^ e) := (two_zpow_pos _).trans_le hlow
  have hn' : (0 : ℚ) < n := by exact_mod_cast hn
  -- the dividend is shifted so far that the whole part of the quotient has all the bits needed
  generalize hT : totalExponent m d - totalExponent n e = T at hlow
  obtain ⟨t, ht⟩ : ∃ t, t = min (d - e) (max (T - 24) (-149)) := ⟨_, rfl⟩
  obtain ⟨a, ha⟩ : ∃ a, a = m <<< (d - e - t).toNat := ⟨_, rfl⟩
  have hcore : divCore Format.binary32 m d n e = (a / n, t, accuracyOfFraction (a % n) n) := by
    rw [ha, ht, ← hT]
    rfl
  have hfraction : (m : ℚ) * 2 ^ d / (n * 2 ^ e) / 2 ^ t = a / n := by
    have hshift : (2 : ℚ) ^ d = 2 ^ (d - e - t).toNat * (2 ^ t * 2 ^ e) := by
      rw [← zpow_natCast, ← zpow_add₀ (by norm_num), ← zpow_add₀ (by norm_num)]
      congr 1
      omega
    have := two_zpow_pos t
    have := two_zpow_pos e
    rw [ha, Nat.shiftLeft_eq, hshift]
    push_cast
    field_simp
  have hstands := stands_fraction a hn
  rw [← hfraction] at hstands
  obtain ⟨hge, hlt⟩ := hstands.bounds
  rw [mantissa_ofMantissaAndAccuracy] at hge hlt
  rw [le_div_iff₀ (two_zpow_pos t)] at hge
  rw [div_lt_iff₀ (two_zpow_pos t)] at hlt
  rw [hcore]
  generalize (m : ℚ) * 2 ^ d / (n * 2 ^ e) = q at *
  have htarget : IsExponentOf q (Format.binary32.targetExponent (totalExponent (a / n) t)) := by
    rcases Nat.eq_zero_or_pos (a / n) with hzero | hpos
    · -- nothing is left of the mantissa only where the exponent is the least
      rw [hzero] at hlt ⊢
      rw [Nat.cast_zero, zero_add, one_mul] at hlt
      have hexp : T - 1 < t := (zpow_lt_zpow_iff_right₀ (by norm_num)).mp (hlow.trans_lt hlt)
      have hleast : Format.binary32.targetExponent (totalExponent 0 t) = -149 := by
        have : Format.binary32.targetExponent (totalExponent 0 t) = max (0 + 1 + t - 24) (-149) :=
          rfl
        omega
      rw [hleast]
      refine ⟨?_, Or.inl rfl, le_rfl⟩
      calc q < 2 ^ t := hlt
        _ ≤ 2 ^ (-149 : ℤ) := zpow_le_zpow_right₀ (by norm_num) (by omega)
        _ ≤ 2 ^ 24 * 2 ^ (-149 : ℤ) := le_mul_of_one_le_left (two_zpow_pos _).le (by norm_num)
    · exact isExponentOf_target hpos hge hlt
  refine rank_roundWithAccuracy hstands htarget ?_
  rw [← htarget.eq_exponentOf hq.le, exponentOf, if_pos hq]
  have hlog : T - 1 ≤ Int.log 2 q :=
    (Int.zpow_le_iff_le_log (by norm_num) hq).mp (by exact_mod_cast hlow)
  change t ≤ max (Int.log 2 q - 23) (-149)
  omega

theorem div_apply (s s' : Sign) (a b : ℚ) :
    ((s.apply 1 : ℤ) * a) / ((s'.apply 1 : ℤ) * b) = ((s / s').apply 1 : ℤ) * (a / b) := by
  cases s <;> cases s'
  · change (-1 : ℤ) * a / ((-1 : ℤ) * b) = (1 : ℤ) * (a / b)
    push_cast
    rw [neg_one_mul, neg_one_mul, neg_div_neg_eq, one_mul]
  · change (-1 : ℤ) * a / ((1 : ℤ) * b) = (-1 : ℤ) * (a / b)
    push_cast
    rw [neg_one_mul, neg_one_mul, one_mul, neg_div]
  · change (1 : ℤ) * a / ((-1 : ℤ) * b) = (-1 : ℤ) * (a / b)
    push_cast
    rw [neg_one_mul, neg_one_mul, one_mul, div_neg]
  · change (1 : ℤ) * a / ((1 : ℤ) * b) = (1 : ℤ) * (a / b)
    push_cast
    rw [one_mul, one_mul, one_mul]

theorem Denotes.rank_div {u v : UnpackedFloat} (hu : Denotes u p) (hv : Denotes v q) (hq : q ≠ 0) :
    rank (.ofModel (.pack (u.div Format.binary32 v))) = nearest (p / q) := by
  cases hv with
  | zero s' => exact absurd rfl hq
  | @finite s' n e hn hn' hlt' =>
    cases hu with
    | zero s =>
      rw [zero_div, nearest_zero]
      exact rank_pack_zero (s / s')
    | @finite s m d hm hm' hlt =>
      have hvalue : ((s.apply m : ℤ) : ℚ) * 2 ^ d / ((s'.apply n : ℤ) * 2 ^ e) =
          ((s / s').apply 1 : ℤ) * (m * 2 ^ d / (n * 2 ^ e)) := by
        rw [apply_mul s m, apply_mul s' n, Int.cast_mul, Int.cast_mul, mul_assoc, mul_assoc,
          div_apply, Int.cast_natCast, Int.cast_natCast]
      have hnonneg : (0 : ℚ) ≤ m * 2 ^ d / (n * 2 ^ e) := by
        have := two_zpow_pos d
        have := two_zpow_pos e
        positivity
      rw [hvalue, nearest_apply _ hnonneg]
      exact rank_divCore (s / s') hm hn d e

theorem Denotes.isFinite {u : UnpackedFloat} (h : Denotes u q) : u.isFinite = true := by
  cases h <;> rfl

theorem Denotes.exists_mantissa {u : UnpackedFloat} (h : Denotes u q) :
    ∃ m e : ℤ, IsMantissa m e ∧ rankAt m e < top ∧ |q| = m * 2 ^ e := by
  cases h with
  | zero s =>
    refine ⟨0, -149, ⟨le_rfl, by norm_num, Or.inl rfl, le_rfl⟩, by norm_num [rankAt, top], ?_⟩
    simp
  | @finite s m e hm hmantissa hlt =>
    refine ⟨m, e, hmantissa, hlt, ?_⟩
    have hpos := two_zpow_pos e
    cases s <;> simp [Sign.apply, abs_mul, abs_of_pos hpos]

theorem Denotes.nearest_finite {u : UnpackedFloat} (h : Denotes u q) :
    -top < nearest q ∧ nearest q < top := by
  obtain ⟨m, e, hm, hlt, habs⟩ := h.exists_mantissa
  have htop := top_pos
  have hnonneg : 0 ≤ nearest |q| := nearest_zero ▸ nearest_mono (abs_nonneg q)
  have hrank : nearest |q| = min (rankAt m e) top := by rw [habs, nearest_of_mantissa hm]
  rcases abs_choice q with hq | hq <;> rw [hq] at hrank hnonneg
  · omega
  · rw [nearest_neg] at hrank hnonneg
    omega

/-- Different numbers have different ranks, in the order of the numbers. -/
theorem Denotes.nearest_lt {u v : UnpackedFloat} (hu : Denotes u p) (hv : Denotes v q)
    (h : p < q) : nearest p < nearest q := by
  have hnonneg : ∀ {u v : UnpackedFloat} {p q : ℚ}, Denotes u p → Denotes v q → 0 ≤ p → p < q →
      nearest p < nearest q := by
    intro u v p q hu hv hp hlt
    obtain ⟨m, d, hm, hmtop, habs⟩ := hu.exists_mantissa
    obtain ⟨n, e, hn, hntop, habs'⟩ := hv.exists_mantissa
    rw [abs_of_nonneg hp] at habs
    rw [abs_of_nonneg (hp.trans hlt.le)] at habs'
    subst habs habs'
    rw [nearest_of_mantissa hm, nearest_of_mantissa hn, min_eq_left hmtop.le,
      min_eq_left hntop.le]
    exact (hm.rankAt_lt_iff hn).mpr hlt
  -- below zero the order is that of the negatives, reversed
  rcases le_or_gt 0 p with hp | hp
  · exact hnonneg hu hv hp h
  · rcases le_or_gt q 0 with hq | hq
    · have := hnonneg hv.neg hu.neg (neg_nonneg.mpr hq) (neg_lt_neg h)
      rw [nearest_neg, nearest_neg] at this
      omega
    · have hlow : nearest p ≤ 0 := nearest_zero ▸ nearest_mono hp.le
      have hhigh := hnonneg (.zero .positive) hv le_rfl hq
      rw [nearest_zero] at hhigh
      omega

theorem Denotes.le_of_nearest_le {u v : UnpackedFloat} (hu : Denotes u p) (hv : Denotes v q)
    (h : nearest p ≤ nearest q) : p ≤ q := by
  by_contra hlt
  have := hv.nearest_lt hu (not_le.mp hlt)
  omega

/-! ## Finite scalars -/

theorem exists_value (h : x.isFinite = true) : ∃ q, x.value? = some q := by
  have hfinite : x.toModel.unpack.isFinite = true := h
  unfold value?
  cases hx : x.toModel.unpack with
  | notANumber =>
    rw [hx] at hfinite
    cases hfinite
  | infinity s =>
    rw [hx] at hfinite
    cases hfinite
  | zero s => exact ⟨0, rfl⟩
  | finite s m e hm => exact ⟨_, rfl⟩

theorem isFinite_of_value (h : x.value? = some q) : x.isFinite = true := by
  have hfinite : x.isFinite = x.toModel.unpack.isFinite := rfl
  rw [hfinite]
  exact (denotes_unpack h).isFinite

theorem rank_add (hx : x.value? = some p) (hy : y.value? = some q) :
    (x + y).rank = nearest (p + q) :=
  (denotes_unpack hx).rank_add (denotes_unpack hy)

theorem rank_sub (hx : x.value? = some p) (hy : y.value? = some q) :
    (x - y).rank = nearest (p - q) := by
  have hsub : x - y =
      .ofModel (.pack (.sub Format.binary32 x.toModel.unpack y.toModel.unpack)) := rfl
  rw [hsub, sub_eq_add, Rat.sub_eq_add_neg]
  exact (denotes_unpack hx).rank_add (denotes_unpack hy).neg

theorem rank_mul (hx : x.value? = some p) (hy : y.value? = some q) :
    (x * y).rank = nearest (p * q) :=
  (denotes_unpack hx).rank_mul (denotes_unpack hy)

theorem rank_div (hx : x.value? = some p) (hy : y.value? = some q) (hq : q ≠ 0) :
    (x / y).rank = nearest (p / q) :=
  (denotes_unpack hx).rank_div (denotes_unpack hy) hq

theorem rank_toFloat32 (n : UInt32) : rank n.toFloat32 = nearest n.toNat := by
  have h := rank_normalize n.toNat 0 .positive
  rw [zpow_zero, mul_one, Int.cast_natCast] at h
  exact h

theorem rank_lt_top (h : x.value? = some p) : -top < x.rank ∧ x.rank < top :=
  isFinite_iff.mp (isFinite_of_value h)

theorem value_le_of_nearest_le (hx : x.value? = some p) (hy : y.value? = some q)
    (h : nearest p ≤ nearest q) : p ≤ q :=
  (denotes_unpack hx).le_of_nearest_le (denotes_unpack hy) h

/-- Rounding is monotone. -/
theorem le_of_rank (hx : x.rank = nearest p) (hy : y.rank = nearest q) (h : p ≤ q) : x ≤ y := by
  rw [le_iff, hx, hy]
  exact ⟨nearest_mono h, (nearest_bounds q).2⟩

/-- Finite scalars are ordered as the numbers for which they stand. -/
theorem value_le_iff (hx : x.value? = some p) (hy : y.value? = some q) : x ≤ y ↔ p ≤ q := by
  constructor
  · intro hle
    rw [le_iff, rank_eq_nearest hx, rank_eq_nearest hy] at hle
    exact value_le_of_nearest_le hx hy hle.1
  · exact le_of_rank (rank_eq_nearest hx) (rank_eq_nearest hy)

theorem value_lt_iff (hx : x.value? = some p) (hy : y.value? = some q) : x < y ↔ p < q := by
  rw [lt_iff, and_iff_left (rank_lt_top hy).2.le, rank_eq_nearest hx, rank_eq_nearest hy]
  constructor
  · intro h
    by_contra hle
    have := nearest_mono (not_lt.mp hle)
    omega
  · exact (denotes_unpack hx).nearest_lt (denotes_unpack hy)

theorem Reads.neg {u : UnpackedFloat} {r : ℤ} (h : Reads u r) : Reads u.neg (-r) := by
  cases h with
  | zero s => exact .zero (-s)
  | finite s hm hmantissa hlt =>
    rw [← neg_apply]
    exact .finite (-s) hm hmantissa hlt
  | infinity s =>
    rw [← neg_apply]
    exact .infinity (-s)

theorem rank_neg (h : x.rank ≤ top) : (-x).rank = -x.rank :=
  (reads_of_rank_le h).neg.rank_pack

/-- A scalar at the rank of a number stands for that number. -/
theorem value_of_rank {u : UnpackedFloat} (h : Denotes u q) (hx : x.rank = nearest q) :
    x.value? = some q := by
  have hbounds := h.nearest_finite
  rw [← hx] at hbounds
  obtain ⟨p, hp⟩ := exists_value (isFinite_iff.mpr hbounds)
  have hrank : nearest p = nearest q := by rw [← rank_eq_nearest hp, hx]
  have hdenotes := denotes_unpack hp
  rw [hp, le_antisymm (hdenotes.le_of_nearest_le h hrank.le)
    (h.le_of_nearest_le hdenotes hrank.ge)]

theorem value_neg (h : x.value? = some q) : (-x).value? = some (-q) :=
  value_of_rank (denotes_unpack h).neg (denotes_unpack h).neg.rank_pack

/-- The largest finite scalar. -/
def largest : ℚ := (2 ^ 24 - 1) * 2 ^ (104 : ℤ)

theorem abs_value_le_largest (h : x.value? = some q) : |q| ≤ largest := by
  obtain ⟨m, e, hm, hlt, habs⟩ := (denotes_unpack h).exists_mantissa
  have hlargest : IsMantissa (2 ^ 24 - 1) 104 :=
    ⟨by norm_num, by norm_num, Or.inr (by norm_num), by norm_num⟩
  have hvalue : largest = ((2 ^ 24 - 1 : ℤ) : ℚ) * 2 ^ (104 : ℤ) := by
    norm_num [largest]
  rw [habs, hvalue]
  by_contra hgt
  have hrank := (hlargest.rankAt_lt_iff hm).mpr (not_le.mp hgt)
  have htop : rankAt (2 ^ 24 - 1) 104 + 1 = top := by norm_num [rankAt, top]
  omega

/-- What is infinite or no number swallows the finite numbers added to it. -/
theorem add_of_not_finite (hx : x.isFinite = true) (hy : ¬ y.isFinite = true) : x + y = y := by
  have hsum : x.toModel.unpack.add Format.binary32 y.toModel.unpack = y.toModel.unpack := by
    obtain ⟨q, hq⟩ := exists_value hx
    have hx' := denotes_unpack hq
    have hy' : ¬ y.toModel.unpack.isFinite = true := hy
    generalize x.toModel.unpack = u at hx'
    generalize y.toModel.unpack = v at hy'
    cases v with
    | zero s => exact absurd rfl hy'
    | finite s m e hm => exact absurd rfl hy'
    | notANumber => cases hx' <;> rfl
    | infinity s => cases hx' <;> rfl
  have hadd : x + y = .ofModel (.pack (.add Format.binary32 x.toModel.unpack y.toModel.unpack)) :=
    rfl
  rw [hadd, hsum, pack_unpack]

/-! ## Integers among the scalars -/

theorem exists_denotes_mantissa {m e : ℤ} (h : IsMantissa m e) (hlt : rankAt m e < top) :
    ∃ u, Denotes u (m * 2 ^ e) := by
  lift m to ℕ using h.nonneg
  rcases Nat.eq_zero_or_pos m with rfl | hm
  · exact ⟨.zero .positive, by simpa using Denotes.zero .positive⟩
  · exact ⟨.finite .positive m e hm, .finite .positive hm h hlt⟩

/-- A multiple of a power of two by a natural number of at most 24 bits is among the numbers for
which scalars stand. -/
theorem exists_denotes_of_lt {n : ℕ} {e : ℤ} (hn : n < 2 ^ 24) (hleast : -149 ≤ e) (htop : e ≤ 104) :
    ∃ u, Denotes u (n * 2 ^ e) := by
  have hpos := two_zpow_pos e
  have hbound : (n : ℚ) * 2 ^ e < 2 ^ 24 * 2 ^ e :=
    mul_lt_mul_of_pos_right (by exact_mod_cast hn) hpos
  have hexp := isExponentOf_exponentOf (q := n * 2 ^ e) (by positivity)
  have hle : exponentOf ((n : ℚ) * 2 ^ e) ≤ e := by
    by_contra hgt
    have hge := hexp.ge.resolve_left (by omega)
    have hpow : (2 : ℚ) ^ (e + 1) ≤ 2 ^ exponentOf ((n : ℚ) * 2 ^ e) :=
      zpow_le_zpow_right₀ (by norm_num) (by omega)
    rw [zpow_add_one₀ (by norm_num)] at hpow
    linarith
  -- with the exponent of the number the natural number becomes its mantissa
  generalize exponentOf ((n : ℚ) * 2 ^ e) = f at *
  obtain ⟨j, rfl⟩ : ∃ j : ℕ, e = f + j := ⟨(e - f).toNat, by omega⟩
  have hvalue : (n : ℚ) * 2 ^ (f + j) = ((n * 2 ^ j : ℕ) : ℚ) * 2 ^ f := by
    rw [zpow_add_natCast]
    push_cast
    ring
  rw [hvalue] at hexp ⊢
  obtain ⟨hlt, hge, hf⟩ := hexp
  have hf0 := two_zpow_pos f
  have hmantissa : IsMantissa (n * 2 ^ j : ℕ) f := by
    refine ⟨by positivity, ?_, hge.imp_right fun hge => ?_, hf⟩
    · exact_mod_cast lt_of_mul_lt_mul_right hlt hf0.le
    · exact_mod_cast le_of_mul_le_mul_right hge hf0
  have hlt' := hmantissa.lt
  obtain ⟨u, hu⟩ := exists_denotes_mantissa hmantissa (by simp only [rankAt, top]; omega)
  exact ⟨u, by exact_mod_cast hu⟩

/-- A natural number of at most 24 bits is among them. -/
theorem exists_denotes_natCast {n : ℕ} (h : n < 2 ^ 24) : ∃ u, Denotes u n := by
  have hu := exists_denotes_of_lt (e := 0) h (by norm_num) (by norm_num)
  rwa [zpow_zero, mul_one] at hu

theorem value_toFloat32 {n : UInt32} (h : n.toNat < 2 ^ 24) :
    value? n.toFloat32 = some (n.toNat : ℚ) := by
  obtain ⟨u, hu⟩ := exists_denotes_natCast h
  exact value_of_rank hu (rank_toFloat32 n)

end PlantGrowth.Scalar
