import PlantGrowth.Proofs.Rounding
import PlantGrowth.Scalar
import Mathlib

/-!
# Scalars as bits

The bits of a scalar are its sign and, if it is a number, its rank among the binary32 numbers
(`Scalar.rank`). Read as sign, mantissa and exponent, they give a mantissa of 24 bits with just
that rank (`unpack_cases`); put together from sign, mantissa and exponent, they have the rank of
these, or that of infinity (`rank_pack_finite`).

The rounding in between works on a mantissa with two residual bits. `Stands` says for which
rational number such a mantissa stands, and `rank_roundWithAccuracy` that rounding gives the number
nearest to it; `rank_normalize` is the same for signed sums.
-/

set_option autoImplicit false

namespace PlantGrowth.Scalar

open Float.Model (Format UnpackedFloat totalExponent)
open Float.Model.UnpackedFloat
open Rounding

/-- Place of a scalar in the order from −∞ to ∞, zeros at 0. What is no number comes after ∞. -/
def rank (x : Scalar) : ℤ :=
  if x.toBits.toNat < 2 ^ 31 then x.toBits.toNat else 2 ^ 31 - x.toBits.toNat

/-- The mantissa is in the lowest 23 bits. -/
theorem toNat_unpackMantissa (b : BitVec Format.binary32.numBits) :
    (unpackMantissa b).toNat = b.toNat % 2 ^ 23 := by
  simp [unpackMantissa, BitVec.extractLsb]

/-- The exponent is in the eight bits above the mantissa. -/
theorem toNat_unpackExponent (b : BitVec Format.binary32.numBits) :
    (unpackExponent b).toNat = b.toNat / 2 ^ 23 % 2 ^ 8 := by
  simp [unpackExponent, BitVec.extractLsb, Nat.shiftRight_eq_div_pow]

theorem toNat_unpackSign (b : BitVec Format.binary32.numBits) :
    (unpackSign b).toNat = b.toNat / 2 ^ 31 % 2 := by
  simp [unpackSign, BitVec.extractLsb, Nat.shiftRight_eq_div_pow]

/-- A number as its sign, mantissa and exponent, together with its rank. -/
inductive Reads : UnpackedFloat → ℤ → Prop
  | zero (s : Sign) : Reads (.zero s) 0
  | finite (s : Sign) {m : ℕ} {e : ℤ} (hm : 0 < m) : IsMantissa m e → rankAt m e < top →
      Reads (.finite s m e hm) (s.apply (rankAt m e))
  | infinity (s : Sign) : Reads (.infinity s) (s.apply top)

/-- The sign is positive exactly if the uppermost bit is clear. -/
theorem ofBitVec_unpackSign (b : BitVec Format.binary32.numBits) :
    Sign.ofBitVec (unpackSign b) = if b.toNat < 2 ^ 31 then .positive else .negative := by
  have hlt : b.toNat < 2 ^ 32 := b.isLt
  have hs := toNat_unpackSign b
  unfold Sign.ofBitVec
  by_cases h : b.toNat < 2 ^ 31
  · have : unpackSign b = 0#1 := by
      apply BitVec.eq_of_toNat_eq
      rw [hs, BitVec.toNat_zero]
      omega
    rw [if_pos this, if_pos h]
  · have : unpackSign b ≠ 0#1 := by
      intro h0
      rw [h0, BitVec.toNat_zero] at hs
      omega
    rw [if_neg this, if_neg h]

/-- A normal number has one more bit of mantissa than is written. -/
theorem toNat_append_mantissa (b : BitVec 23) : (1#1 ++ b).toNat = 2 ^ 23 + b.toNat := by
  rw [BitVec.toNat_append, ← Nat.shiftLeft_add_eq_or_of_lt b.isLt]
  simp [Nat.shiftLeft_eq]

/-- A finite number is read from its place in the row of scalars. -/
theorem Reads.of_rank_eq (s : Sign) {m : ℕ} {e k : ℤ} (hm : 0 < m) (h : IsMantissa m e)
    (hk : rankAt m e = k) (hlt : k < top) : Reads (.finite s m e hm) (s.apply k) := by
  subst hk
  exact .finite s hm h hlt

/-- Bits other than those of a NaN are read as a number with its rank. -/
theorem reads_unpack_bits (b : BitVec Format.binary32.numBits)
    (h : unpackExponent b = -1#_ → unpackMantissa b = 0#_) :
    Reads (unpack Format.binary32 b)
      ((Sign.ofBitVec (unpackSign b)).apply (b.toNat % 2 ^ 31 : ℕ)) := by
  have hM := toNat_unpackMantissa b
  have hE := toNat_unpackExponent b
  -- the conditions on the two fields as conditions on numbers
  have hones : unpackExponent b = -1#_ ↔ b.toNat / 2 ^ 23 % 2 ^ 8 = 255 := by
    rw [← BitVec.toNat_inj, hE]
    rfl
  have hzeros : unpackExponent b = 0#_ ↔ b.toNat / 2 ^ 23 % 2 ^ 8 = 0 := by
    rw [← BitVec.toNat_inj, hE]
    rfl
  have hnone : unpackMantissa b = 0#_ ↔ b.toNat % 2 ^ 23 = 0 := by
    rw [← BitVec.toNat_inj, hM]
    rfl
  fun_cases unpack Format.binary32 b with
  | case1 mantissa exponent signBit sign hexponent hmantissa =>
    have hE' := hones.mp hexponent
    have hM' := hnone.mp hmantissa
    rw [show ((b.toNat % 2 ^ 31 : ℕ) : ℤ) = top by unfold top; omega]
    exact .infinity sign
  | case2 mantissa exponent hexponent hmantissa => exact absurd (h hexponent) hmantissa
  | case3 mantissa exponent signBit sign hexponent hzero hmantissa =>
    have hE' := hzeros.mp hzero
    have hM' := hnone.mp hmantissa
    rw [show b.toNat % 2 ^ 31 = 0 by omega]
    change Reads _ (sign.apply 0)
    cases sign <;> exact .zero _
  | case4 mantissa exponent shift signBit sign hexponent hzero hmantissa =>
    have hE' := hzeros.mp hzero
    have hM' := mt hnone.mpr hmantissa
    have hmantissa_eq : mantissa.toNat = b.toNat % 2 ^ 23 := hM
    have hshift : shift = -150 := by
      have : exponent.toNat = b.toNat / 2 ^ 23 % 2 ^ 8 := hE
      change (exponent.toNat : ℤ) - (127 + 23) = -150
      omega
    apply Reads.of_rank_eq
    · constructor <;> omega
    · simp only [rankAt]
      omega
    · simp only [top]
      omega
  | case5 mantissa exponent shift signBit sign hexponent hzero =>
    have hE' := mt hones.mpr hexponent
    have hE'' := mt hzeros.mpr hzero
    have hmantissa_eq : (1#1 ++ mantissa).toNat = 2 ^ 23 + b.toNat % 2 ^ 23 := by
      rw [← hM]
      exact toNat_append_mantissa mantissa
    have hshift : shift = (b.toNat / 2 ^ 23 % 2 ^ 8 : ℕ) - 150 := by
      have : exponent.toNat = b.toNat / 2 ^ 23 % 2 ^ 8 := hE
      change (exponent.toNat : ℤ) - (127 + 23) = _
      omega
    apply Reads.of_rank_eq
    · constructor <;> omega
    · simp only [rankAt]
      omega
    · simp only [top]
      omega

/-- A scalar is no number, or it is read as a number with its rank. -/
theorem unpack_cases (x : Scalar) :
    x.toModel.unpack = .notANumber ∧ top < x.rank ∨ Reads x.toModel.unpack x.rank := by
  have hunpack : x.toModel.unpack = unpack Format.binary32 x.toBits.toBitVec := rfl
  have htoNat : x.toBits.toBitVec.toNat = x.toBits.toNat := rfl
  rw [hunpack]
  let bits : BitVec Format.binary32.numBits := x.toBits.toBitVec
  by_cases hnan : unpackExponent bits = -1#_ ∧ unpackMantissa bits ≠ 0#_
  · -- there is only one pattern of bits that is no number
    have hbits : x.toBits.toBitVec = packedNaN Format.binary32 :=
      x.toModel.valid.eq_packedNaN hnan.1 hnan.2
    have hrank : x.toBits.toNat = 0x7fc00000 := congrArg BitVec.toNat hbits
    rw [hbits]
    refine Or.inl ⟨rfl, ?_⟩
    rw [rank, hrank]
    decide
  · rw [not_and, not_not] at hnan
    have hread := reads_unpack_bits x.toBits.toBitVec hnan
    have hsign := ofBitVec_unpackSign x.toBits.toBitVec
    have hlt : x.toBits.toNat < 2 ^ 32 := x.toBits.toNat_lt
    rw [hsign, htoNat] at hread
    refine Or.inr ?_
    unfold rank
    split at hread
    · rename_i hpos
      rw [if_pos hpos]
      rwa [Sign.apply, Nat.mod_eq_of_lt hpos] at hread
    · rename_i hneg
      rw [if_neg hneg]
      rw [Sign.apply] at hread
      convert hread using 1
      omega

/-! ## Packing -/

/-- The three parts of a number stand side by side. -/
theorem toNat_packComponents (s : Sign) (exponent : BitVec 8) (mantissa : BitVec 23) :
    (packComponents Format.binary32 s exponent mantissa).toNat =
      s.toBitVec.toNat * 2 ^ 31 + exponent.toNat * 2 ^ 23 + mantissa.toNat := by
  have hfirst : (s.toBitVec ++ exponent).toNat = s.toBitVec.toNat * 2 ^ 8 + exponent.toNat := by
    rw [BitVec.toNat_append, ← Nat.shiftLeft_add_eq_or_of_lt exponent.isLt, Nat.shiftLeft_eq]
  have hall : (s.toBitVec ++ exponent ++ mantissa).toNat =
      (s.toBitVec ++ exponent).toNat * 2 ^ 23 + mantissa.toNat := by
    rw [BitVec.toNat_append, ← Nat.shiftLeft_add_eq_or_of_lt mantissa.isLt, Nat.shiftLeft_eq]
  have h := hall
  rw [hfirst] at h
  unfold packComponents
  rw [show 2 ^ 31 = 2 ^ 8 * 2 ^ 23 by norm_num, ← Nat.mul_assoc, ← Nat.add_mul]
  exact h

/-- The rank of packed bits: the exponent and the mantissa as one number, with the sign. -/
theorem rank_packComponents {s : Sign} {exponent : BitVec 8} {mantissa : BitVec 23} {x : Scalar}
    (h : x.toBits.toNat = (packComponents Format.binary32 s exponent mantissa).toNat) :
    x.rank = s.apply (exponent.toNat * 2 ^ 23 + mantissa.toNat : ℕ) := by
  have hexponent : exponent.toNat < 2 ^ 8 := exponent.isLt
  have hmantissa : mantissa.toNat < 2 ^ 23 := mantissa.isLt
  rw [toNat_packComponents] at h
  unfold rank
  cases s with
  | positive =>
    rw [show Sign.positive.toBitVec.toNat = 0 from rfl] at h
    rw [if_pos (by omega), Sign.apply]
    omega
  | negative =>
    rw [show Sign.negative.toBitVec.toNat = 1 from rfl] at h
    rw [if_neg (by omega), Sign.apply]
    omega

theorem rank_pack_zero (s : Sign) : rank (.ofModel (.pack (.zero s))) = 0 := by
  cases s <;> rfl

theorem rank_pack_infinity (s : Sign) : rank (.ofModel (.pack (.infinity s))) = s.apply top := by
  cases s <;> rfl

/-- What is no number lies beyond infinity in the row. -/
theorem rank_pack_notANumber : top < rank (.ofModel (.pack .notANumber)) := by
  decide

/-- The three ways to write a finite number: as infinity, as a normal number, and as a number too
small for that. -/
theorem pack_finite (s : Sign) {m : ℕ} {e : ℤ} (hm : 0 < m) :
    UnpackedFloat.pack Format.binary32 (.finite s m e hm) =
      if 256 ≤ (e + 127 + 23).toNat + 1 then packComponents Format.binary32 s (-1#8) 0#23
      else if m.log2 + 1 = 24 then
        packComponents Format.binary32 s (BitVec.ofNat 8 (e + 127 + 23).toNat) (BitVec.ofNat 23 m)
      else packComponents Format.binary32 s 0#8 (BitVec.ofNat 23 m) :=
  rfl

/-- The rank of a packed number, which is infinite where the exponent is too large. -/
theorem rank_pack_finite (s : Sign) {m : ℕ} {e : ℤ} (hm : 0 < m) (h : IsMantissa m e) :
    rank (.ofModel (.pack (.finite s m e hm))) = s.apply (min (rankAt m e) top) := by
  obtain ⟨-, hlt, hge, hleast⟩ := h
  have htop : top = 255 * 2 ^ 23 := rfl
  have hlog : m.log2 + 1 = 24 ↔ 2 ^ 23 ≤ m := by
    rw [← Nat.le_log2 hm.ne']
    have hlt' : m.log2 < 24 := (Nat.log2_lt hm.ne').mpr (by exact_mod_cast hlt)
    omega
  have hrank : ∀ {E : BitVec 8} {M : BitVec 23} {k : ℤ},
      UnpackedFloat.pack Format.binary32 (.finite s m e hm) = packComponents _ s E M →
      ((E.toNat * 2 ^ 23 + M.toNat : ℕ) : ℤ) = k →
      rank (.ofModel (.pack (.finite s m e hm))) = s.apply k := by
    rintro E M _ hbits rfl
    apply rank_packComponents
    rw [← hbits]
    rfl
  rw [pack_finite] at hrank
  unfold rankAt
  split at hrank
  · refine hrank rfl ?_
    rw [min_eq_right (by omega)]
    rfl
  · split at hrank
    · rename_i hnormal
      rw [hlog] at hnormal
      refine hrank rfl ?_
      rw [BitVec.toNat_ofNat, BitVec.toNat_ofNat, min_eq_left (by omega)]
      omega
    · rename_i hsub
      rw [hlog] at hsub
      refine hrank rfl ?_
      rw [BitVec.toNat_ofNat, BitVec.toNat_ofNat, min_eq_left (by omega)]
      omega

/-- Put together again, a number has the rank it was read with. -/
theorem Reads.rank_pack {u : UnpackedFloat} {r : ℤ} (h : Reads u r) :
    rank (.ofModel (.pack u)) = r := by
  cases h with
  | zero s => exact rank_pack_zero s
  | finite s hm h hlt => rw [rank_pack_finite s hm h, min_eq_left hlt.le]
  | infinity s => exact rank_pack_infinity s

/-- Bits up to those of infinity are a number with that rank. -/
theorem rank_ofBits {b : UInt32} (h : b.toNat ≤ 0x7f800000) :
    rank (Float32.ofBits b) = b.toNat := by
  have hbits : b.toBitVec.toNat = b.toNat := rfl
  have hread := reads_unpack_bits b.toBitVec fun hones => by
    have hexponent := congrArg BitVec.toNat hones
    rw [toNat_unpackExponent, hbits] at hexponent
    change b.toNat / 2 ^ 23 % 2 ^ 8 = 255 at hexponent
    apply BitVec.eq_of_toNat_eq
    rw [toNat_unpackMantissa, hbits, BitVec.toNat_zero]
    omega
  rw [ofBitVec_unpackSign, hbits, if_pos (by omega), Nat.mod_eq_of_lt (by omega)] at hread
  exact hread.rank_pack

/-! ## Rounding -/

/-- The mantissa and its two residual bits stand for a number: they give its whole part and how
the rest compares with one half. -/
def Stands (em : ExtendedMantissa) (q : ℚ) : Prop :=
  match em.roundBit, em.stickyBit with
  | false, false => q = em.mantissa
  | false, true => em.mantissa < q ∧ q < em.mantissa + 1 / 2
  | true, false => q = em.mantissa + 1 / 2
  | true, true => em.mantissa + 1 / 2 < q ∧ q < em.mantissa + 1

namespace Stands

variable {em : ExtendedMantissa} {q : ℚ}

/-- An extended mantissa is the whole part of what it stands for. -/
theorem bounds (h : Stands em q) : em.mantissa ≤ q ∧ q < em.mantissa + 1 := by
  obtain ⟨m, r, s⟩ := em
  cases r <;> cases s <;> simp only [Stands] at h ⊢ <;> constructor <;> linarith

theorem floor_eq (h : Stands em q) : ⌊q⌋ = em.mantissa := by
  rw [Int.floor_eq_iff]
  exact_mod_cast h.bounds

/-- Rounding an extended mantissa rounds what it stands for to nearest even. -/
theorem roundedMantissa_eq (h : Stands em q) : (em.roundedMantissa : ℤ) = roundEven q := by
  have hfloor := h.floor_eq
  have hfract : Int.fract q = q - em.mantissa := by
    rw [Int.fract, hfloor]
    norm_cast
  unfold roundEven
  rw [hfract, hfloor]
  obtain ⟨m, r, s⟩ := em
  cases r <;> cases s <;>
    simp only [Stands, ExtendedMantissa.roundedMantissa, ExtendedMantissa.accuracy,
      Accuracy.roundToNearestEven] at h ⊢ <;>
    split_ifs <;> first | omega | (exfalso; linarith)

/-- A shift by one bit halves what an extended mantissa stands for, without a loss. -/
theorem shiftRightOne (h : Stands em q) : Stands em.shiftRightOne (q / 2) := by
  obtain ⟨m, r, s⟩ := em
  rcases Nat.mod_two_eq_zero_or_one m with hm | hm
  · have hhalf : (m : ℚ) = 2 * (m / 2 : ℕ) := by
      exact_mod_cast (show m = 2 * (m / 2) by omega)
    cases r <;> cases s <;>
      simp only [Stands, ExtendedMantissa.shiftRightOne, hm] at h ⊢ <;>
      first | (simp; linarith) | (simp; constructor <;> linarith)
  · have hhalf : (m : ℚ) = 2 * (m / 2 : ℕ) + 1 := by
      exact_mod_cast (show m = 2 * (m / 2) + 1 by omega)
    cases r <;> cases s <;>
      simp only [Stands, ExtendedMantissa.shiftRightOne, hm] at h ⊢ <;>
      first | (simp; linarith) | (simp; constructor <;> linarith)

/-- A shift by some bits divides what an extended mantissa stands for. -/
theorem shiftRight (h : Stands em q) (n : ℕ) : Stands (em >>> n) (q / 2 ^ n) := by
  change Stands (n.repeat ExtendedMantissa.shiftRightOne em) _
  induction n with
  | zero => simpa [Nat.repeat] using h
  | succ n ih =>
    rw [pow_succ, ← div_div]
    exact ih.shiftRightOne

end Stands

theorem stands_exact (m : ℕ) : Stands (.ofMantissaAndAccuracy m .exact) m := by
  simp [Stands, ExtendedMantissa.ofMantissaAndAccuracy]

theorem mantissa_ofMantissaAndAccuracy (m : ℕ) (accuracy : Accuracy) :
    (ExtendedMantissa.ofMantissaAndAccuracy m accuracy).mantissa = m := by
  unfold ExtendedMantissa.ofMantissaAndAccuracy
  split <;> rfl

/-- The exponent to which a mantissa is shifted is that of the number it stands for. -/
theorem isExponentOf_target {m : ℕ} {e : ℤ} {q : ℚ} (hm : 0 < m) (hlow : m * 2 ^ e ≤ q)
    (hhigh : q < (m + 1) * 2 ^ e) :
    IsExponentOf q (Format.binary32.targetExponent (totalExponent m e)) := by
  have htarget : Format.binary32.targetExponent (totalExponent m e) =
      max ((m.log2 : ℤ) + 1 + e - 24) (-149) := rfl
  have hlog : 2 ^ m.log2 ≤ m := (Nat.le_log2 hm.ne').mp le_rfl
  have hlog' : m + 1 ≤ 2 ^ (m.log2 + 1) := Nat.lt_log2_self
  rw [htarget]
  constructor
  · calc q < (m + 1) * 2 ^ e := hhigh
      _ ≤ 2 ^ (m.log2 + 1) * 2 ^ e := by
        apply mul_le_mul_of_nonneg_right _ (two_zpow_pos e).le
        exact_mod_cast hlog'
      _ = 2 ^ (e + (m.log2 + 1 : ℕ)) := (zpow_add_natCast e (m.log2 + 1)).symm
      _ ≤ 2 ^ (max ((m.log2 : ℤ) + 1 + e - 24) (-149) + (24 : ℕ)) := by
        apply zpow_le_zpow_right₀ (by norm_num)
        push_cast
        omega
      _ = 2 ^ 24 * 2 ^ max ((m.log2 : ℤ) + 1 + e - 24) (-149) := zpow_add_natCast _ _
  · rcases le_total ((m.log2 : ℤ) + 1 + e - 24) (-149) with h | h
    · exact Or.inl (max_eq_right h)
    · refine Or.inr ?_
      rw [max_eq_left h]
      calc (2 : ℚ) ^ 23 * 2 ^ ((m.log2 : ℤ) + 1 + e - 24)
          = 2 ^ ((m.log2 : ℤ) + 1 + e - 24 + (23 : ℕ)) := (zpow_add_natCast _ _).symm
        _ = 2 ^ (e + (m.log2 : ℕ)) := by congr 1; push_cast; omega
        _ = 2 ^ m.log2 * 2 ^ e := zpow_add_natCast _ _
        _ ≤ m * 2 ^ e := by
          apply mul_le_mul_of_nonneg_right _ (two_zpow_pos e).le
          exact_mod_cast hlog
        _ ≤ q := hlow
  · exact le_max_right _ _

/-- A mantissa is not shifted to an exponent below its own. -/
theorem shiftToExponent_of_le (m : ℕ) {e t : ℤ} (accuracy : Accuracy) (h : t ≤ e) :
    shiftToExponent m e accuracy t = (.ofMantissaAndAccuracy m accuracy, e) := by
  have hzero : (t - e).toNat = 0 := by omega
  unfold shiftToExponent
  rw [hzero]
  simp [HShiftRight.hShiftRight, Nat.repeat]

/-- A mantissa that has come to one bit too many in rounding is shifted by that bit; the number
and its rank stay the same. -/
theorem carry_shift {r : ℕ} {e : ℤ} (hle : r ≤ 2 ^ 24) (hge : e = -149 ∨ 2 ^ 23 ≤ r)
    (hleast : -149 ≤ e) :
    ∃ (m' : ℕ) (e' : ℤ), (shiftToTargetExponent Format.binary32 r e .exact).1.mantissa = m' ∧
      (shiftToTargetExponent Format.binary32 r e .exact).2 = e' ∧ IsMantissa m' e' ∧
      rankAt m' e' = rankAt r e := by
  have htarget : Format.binary32.targetExponent (totalExponent r e) =
      max ((r.log2 : ℤ) + 1 + e - 24) (-149) := rfl
  unfold shiftToTargetExponent
  rw [htarget]
  rcases hle.lt_or_eq with hlt | rfl
  · have hlog : r.log2 < 24 := by
      rcases Nat.eq_zero_or_pos r with rfl | hpos
      · decide
      · exact (Nat.log2_lt hpos.ne').mpr hlt
    rw [shiftToExponent_of_le r .exact (by omega)]
    refine ⟨r, e, rfl, rfl, ⟨by omega, by omega, by omega, hleast⟩, rfl⟩
  · rw [Nat.log2_two_pow]
    have hone : (max (((24 : ℕ) : ℤ) + 1 + e - 24) (-149) - e).toNat = 1 := by omega
    simp only [shiftToExponent, hone]
    refine ⟨2 ^ 23, e + 1, rfl, rfl, ⟨by norm_num, by norm_num, Or.inr (by norm_num), by omega⟩, ?_⟩
    unfold rankAt
    push_cast
    omega

/-- Rounding gives the number nearest to the one that the mantissa and its accuracy stand for. -/
theorem rank_roundWithAccuracy {s : Sign} {m : ℕ} {e : ℤ} {accuracy : Accuracy} {q : ℚ}
    (hq : Stands (.ofMantissaAndAccuracy m accuracy) (q / 2 ^ e))
    (htarget : IsExponentOf q (Format.binary32.targetExponent (totalExponent m e)))
    (hle : e ≤ Format.binary32.targetExponent (totalExponent m e)) :
    rank (.ofModel (.pack (roundWithAccuracy Format.binary32 s m e accuracy))) =
      s.apply (min (rankOf q) top) := by
  have hpos : 0 ≤ q := by
    have h := hq.bounds.1
    rw [le_div_iff₀ (two_zpow_pos e)] at h
    exact (mul_nonneg (Nat.cast_nonneg _) (two_zpow_pos e).le).trans h
  have hexponent := htarget.eq_exponentOf hpos
  obtain ⟨hlow, hhigh, hge⟩ := roundEven_div_bounds hpos htarget
  -- the first shift brings the mantissa to its 24 bits, and what is lost decides the rounding
  generalize htarget_eq : Format.binary32.targetExponent (totalExponent m e) = t at *
  have hfirst : shiftToTargetExponent Format.binary32 m e accuracy =
      (ExtendedMantissa.ofMantissaAndAccuracy m accuracy >>> (t - e).toNat, t) := by
    simp only [shiftToTargetExponent, shiftToExponent, htarget_eq]
    congr 1
    omega
  have hstands : Stands (ExtendedMantissa.ofMantissaAndAccuracy m accuracy >>> (t - e).toNat)
      (q / 2 ^ t) := by
    have h := hq.shiftRight (t - e).toNat
    have hpow : (2 : ℚ) ^ e * 2 ^ (t - e).toNat = 2 ^ t := by
      rw [mul_comm, ← zpow_add_natCast]
      congr 1
      omega
    rwa [div_div, hpow] at h
  generalize ExtendedMantissa.ofMantissaAndAccuracy m accuracy >>> (t - e).toNat = em at *
  have hrounded := hstands.roundedMantissa_eq
  rw [← hrounded] at hlow hhigh hge
  obtain ⟨m', e', hm', he', hmantissa, hrank⟩ :=
    carry_shift (r := em.roundedMantissa) (by omega) (by omega) htarget.least
  have hresult : rankAt m' e' = rankOf q := by
    rw [hrank, hrounded, rankOf, hexponent]
  rw [← hresult]
  unfold roundWithAccuracy
  simp only [hfirst]
  split
  · rename_i hzero
    rw [hm'] at hzero
    subst hzero
    have he149 := hmantissa.ge
    have hrank0 : rankAt ((0 : ℕ) : ℤ) e' = 0 := by
      unfold rankAt
      omega
    rw [rank_pack_zero, hrank0]
    cases s <;> rfl
  · rename_i hne
    subst hm'
    subst he'
    exact rank_pack_finite s _ hmantissa

/-- A lower exponent is made up for by a greater mantissa. -/
theorem decreaseExponent_value (m : ℕ) (e t : ℤ) :
    ((decreaseExponent m e t).1 : ℚ) * 2 ^ (decreaseExponent m e t).2 = m * 2 ^ e := by
  simp only [decreaseExponent, Nat.shiftLeft_eq]
  push_cast
  rw [mul_assoc, ← zpow_add_natCast]
  congr 2
  omega

theorem decreaseExponent_snd (m : ℕ) (e t : ℤ) : (decreaseExponent m e t).2 = min e t := by
  simp only [decreaseExponent]
  omega

/-- The rank of the number nearest to a rational with the given sign. -/
theorem nearest_apply (s : Sign) {q : ℚ} (hq : 0 ≤ q) :
    nearest ((s.apply 1 : ℤ) * q) = s.apply (min (rankOf q) top) := by
  have hpos : nearest q = min (rankOf q) top := by rw [nearest, if_pos hq]
  cases s with
  | positive =>
    rw [show Sign.apply .positive 1 = 1 from rfl, Int.cast_one, one_mul, hpos]
    rfl
  | negative =>
    rw [show Sign.apply .negative 1 = -1 from rfl, Int.cast_neg, Int.cast_one, neg_one_mul,
      nearest_neg, hpos]
    rfl

theorem apply_mul (s : Sign) (k : ℤ) : s.apply k = s.apply 1 * k := by
  cases s <;> simp [Sign.apply]

/-- Packing rounds a number to the nearest scalar, whatever its exponent. -/
theorem rank_round {s : Sign} {m : ℕ} {e : ℤ} (hm : 0 < m) :
    rank (.ofModel (.pack (UnpackedFloat.round Format.binary32 s m e))) =
      nearest ((s.apply m : ℤ) * 2 ^ e) := by
  have hq : (0 : ℚ) ≤ m * 2 ^ e := mul_nonneg (Nat.cast_nonneg _) (two_zpow_pos e).le
  rw [apply_mul, Int.cast_mul, mul_assoc, Int.cast_natCast, nearest_apply s hq]
  have hlow : ∀ {n : ℕ} {d : ℤ}, (n : ℚ) * 2 ^ d = m * 2 ^ e → 0 < n →
      IsExponentOf (m * 2 ^ e) (Format.binary32.targetExponent (totalExponent n d)) := by
    intro n d hvalue hn
    rw [← hvalue]
    refine isExponentOf_target hn le_rfl ?_
    have := two_zpow_pos d
    linarith
  generalize ht : Format.binary32.targetExponent (totalExponent m e) = t
  have hround : UnpackedFloat.round Format.binary32 s m e = roundWithAccuracy Format.binary32 s
      (decreaseExponent m e t).1 (decreaseExponent m e t).2 .exact := by
    rw [← ht]
    rfl
  have hvalue := decreaseExponent_value m e t
  have hpos : 0 < (decreaseExponent m e t).1 := by
    simp only [decreaseExponent, Nat.shiftLeft_eq]
    positivity
  have htarget := hlow hvalue hpos
  have hsame : t = Format.binary32.targetExponent
      (totalExponent (decreaseExponent m e t).1 (decreaseExponent m e t).2) := by
    rw [← htarget.eq_exponentOf hq, ← ht, (hlow rfl hm).eq_exponentOf hq]
  rw [hround]
  refine rank_roundWithAccuracy ?_ htarget ?_
  · rw [← hvalue, mul_div_cancel_right₀ _ (two_zpow_pos _).ne']
    exact stands_exact _
  · rw [← hsame, decreaseExponent_snd]
    exact min_le_right e t

/-- The same for a whole number with a sign of its own, times a power of two. -/
theorem rank_normalize (k e : ℤ) (s : Sign) :
    rank (.ofModel (.pack (UnpackedFloat.normalize Format.binary32 k e s))) =
      nearest (k * 2 ^ e) := by
  unfold UnpackedFloat.normalize
  rcases lt_trichotomy k 0 with h | rfl | h
  · rw [show compare k 0 = .lt from Int.compare_eq_lt.mpr h]
    simp only
    rw [rank_round (by omega), Sign.apply, Int.toNat_of_nonneg (by omega), neg_neg]
  · simp [nearest_zero, rank_pack_zero]
  · rw [show compare k 0 = .gt from Int.compare_eq_gt.mpr h]
    simp only
    rw [rank_round (by omega), Sign.apply, Int.toNat_of_nonneg h.le]

end PlantGrowth.Scalar
