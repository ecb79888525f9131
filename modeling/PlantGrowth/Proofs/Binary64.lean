import PlantGrowth.Proofs.ScalarArithmetic
import PlantGrowth.Json.Lexical

/-!
# Double precision in between

Numbers of JSON text pass through binary64 before they become scalars. `Holds` says that such a
number is positive and normal and which rational it stands for, `Rounds` that it stands for one
within half a unit of its last place, and for the rational itself where that has 53 bits
(`Short`).

Products and quotients are rounded in this sense (`Holds.mul`, `Holds.div`) in a range that is wide
enough for every scalar (`InRange`), whole numbers of 53 bits are held as they are
(`holds_wordFloat`), and the conversion to a scalar rounds the rational that was held
(`Holds.rank_ofFloat`).
-/

set_option autoImplicit false

namespace PlantGrowth.Binary64

open Float.Model (Format UnpackedFloat totalExponent)
open Float.Model.UnpackedFloat
open Rounding
open Scalar (Stands rank stands_exact stands_fraction mantissa_ofMantissaAndAccuracy)

/-! ## Normal numbers -/

/-- Mantissa and exponent of a number with all its 53 bits. -/
structure IsNormal (m : ℕ) (e : ℤ) : Prop where
  ge : 2 ^ 52 ≤ m
  lt : m < 2 ^ 53
  least : -1074 ≤ e
  greatest : e ≤ 971

theorem IsNormal.pos {m : ℕ} {e : ℤ} (h : IsNormal m e) : 0 < m :=
  lt_of_lt_of_le (by norm_num) h.ge

theorem IsNormal.log2 {m : ℕ} {e : ℤ} (h : IsNormal m e) : m.log2 = 52 := by
  have hlow := (Nat.le_log2 h.pos.ne').mpr h.ge
  have hhigh := (Nat.log2_lt h.pos.ne').mpr h.lt
  omega

theorem unpackSign_packComponents {spec : Format} (s : Sign) (E : BitVec spec.exponentBits)
    (M : BitVec spec.mantissaBitsWithoutImplicit) :
    Sign.ofBitVec (unpackSign (packComponents spec s E M)) = s := by
  have hsign : unpackSign (packComponents spec s E M) = s.toBitVec := by
    ext i hi
    obtain rfl : i = 0 := by omega
    simp [unpackSign, packComponents, BitVec.getLsbD_append, BitVec.getElem_append]
  rw [hsign]
  cases s <;> rfl

/-- A normal number is read as it was written. -/
theorem unpack_pack (s : Sign) {m : ℕ} {e : ℤ} (hm : 0 < m) (h : IsNormal m e) :
    (Float.ofModel (.pack (.finite s m e hm))).toModel.unpack = .finite s m e hm := by
  have hge := h.ge
  have hlt := h.lt
  have hleast := h.least
  have hgreatest := h.greatest
  have hpack : UnpackedFloat.pack Format.binary64 (.finite s m e hm) =
      packComponents Format.binary64 s (BitVec.ofNat 11 (e + 1023 + 52).toNat)
        (BitVec.ofNat 52 m) := by
    have hdef : UnpackedFloat.pack Format.binary64 (.finite s m e hm) =
        if 2 ^ 11 ≤ (e + 1023 + 52).toNat + 1 then packComponents Format.binary64 s (-1#11) 0#52
        else if m.log2 + 1 = 53 then packComponents Format.binary64 s
          (BitVec.ofNat 11 (e + 1023 + 52).toNat) (BitVec.ofNat 52 m)
        else packComponents Format.binary64 s 0#11 (BitVec.ofNat 52 m) := rfl
    rw [hdef, if_neg (by omega), if_pos (by rw [h.log2])]
  have hexponent : (BitVec.ofNat 11 (e + 1023 + 52).toNat).toNat = (e + 1075).toNat := by
    rw [BitVec.toNat_ofNat]
    omega
  have hmantissa : (1#1 ++ BitVec.ofNat 52 m).toNat = m := by
    rw [BitVec.toNat_append, ← Nat.shiftLeft_add_eq_or_of_lt (BitVec.isLt _), BitVec.toNat_ofNat,
      Nat.shiftLeft_eq]
    simp
    omega
  have hones : BitVec.ofNat 11 (e + 1023 + 52).toNat ≠ -1#11 := by
    intro h
    have := congrArg BitVec.toNat h
    rw [hexponent, show (-1#11).toNat = 2047 from rfl] at this
    omega
  have hzeros : BitVec.ofNat 11 (e + 1023 + 52).toNat ≠ 0#11 := by
    intro h
    have := congrArg BitVec.toNat h
    rw [hexponent, show (0#11).toNat = 0 from rfl] at this
    omega
  have hunpack : (Float.ofModel (.pack (.finite s m e hm))).toModel.unpack =
      UnpackedFloat.unpack .binary64 (UnpackedFloat.pack .binary64 (.finite s m e hm)) := rfl
  rw [hunpack, hpack]
  unfold UnpackedFloat.unpack
  simp only [unpackExponent_packComponents, unpackMantissa_packComponents,
    unpackSign_packComponents]
  rw [if_neg hones, if_neg hzeros]
  congr 1
  rw [hexponent]
  change ((e + 1075).toNat : ℤ) - (1023 + 52) = e
  omega

/-! ## Rounding -/

theorem abs_roundEven_sub_le (q : ℚ) : |(roundEven q : ℚ) - q| ≤ 1 / 2 := by
  have hfloor : q = ⌊q⌋ + Int.fract q := (Int.floor_add_fract q).symm
  have hnonneg := Int.fract_nonneg q
  have hone := Int.fract_lt_one q
  unfold roundEven
  split_ifs with hlt hgt
  · rw [abs_le]
    constructor <;> linarith
  · rw [abs_le]
    push_cast
    constructor <;> linarith
  · have hhalf : Int.fract q = 1 / 2 := le_antisymm (not_lt.mp hgt) (not_lt.mp hlt)
    rw [abs_le]
    push_cast
    rcases Int.emod_two_eq ⌊q⌋ with h | h <;> rw [h] <;> constructor <;> push_cast <;> linarith

/-- Rational with a mantissa of at most 53 bits. -/
def Short (q : ℚ) : Prop := ∃ (n : ℕ) (f : ℤ), n < 2 ^ 53 ∧ q = n * 2 ^ f

/-- Rational that is rounded to a normal number. -/
structure InRange (q : ℚ) : Prop where
  low : 2 ^ (-1000 : ℤ) ≤ q
  high : q < 2 ^ (1000 : ℤ)

/-- Within a binade, 53 bits leave only whole units of the last place. -/
theorem Short.exists_intCast {q : ℚ} {t : ℤ} (h : Short q) (hlow : 2 ^ 52 * 2 ^ t ≤ q) :
    ∃ k : ℤ, q / 2 ^ t = k := by
  obtain ⟨n, f, hn, rfl⟩ := h
  have hpos := two_zpow_pos t
  rcases le_or_gt t f with hle | hlt
  · refine ⟨n * 2 ^ (f - t).toNat, ?_⟩
    have hpow : (2 : ℚ) ^ f = 2 ^ (f - t).toNat * 2 ^ t := by
      rw [← zpow_add_natCast]
      congr 1
      omega
    rw [hpow, ← mul_assoc, mul_div_cancel_right₀ _ hpos.ne']
    push_cast
    rfl
  · -- a finer unit would leave the mantissa below the binade
    exfalso
    have hpow : (2 : ℚ) ^ f ≤ 2 ^ (t - 1) := zpow_le_zpow_right₀ (by norm_num) (by omega)
    have hdouble := two_zpow_double t
    have hn' : (n : ℚ) < 2 ^ 53 := by exact_mod_cast hn
    have := mul_lt_mul_of_pos_right hn' (two_zpow_pos f)
    linarith

/-- Exponent of the last place after rounding. -/
theorem target_bounds {m : ℕ} {e : ℤ} {q : ℚ} (hm : 2 ^ 52 ≤ m) (hq : InRange q)
    (hlow : m * 2 ^ e ≤ q) (hhigh : q < (m + 1) * 2 ^ e) :
    ∃ t, Format.binary64.targetExponent (totalExponent m e) = t ∧ e ≤ t ∧ -1074 ≤ t ∧ t ≤ 970 ∧
      2 ^ 52 * 2 ^ t ≤ q ∧ q ≤ 2 ^ 53 * 2 ^ t := by
  have hm0 : m ≠ 0 := by omega
  have hlog : 52 ≤ m.log2 := (Nat.le_log2 hm0).mpr hm
  have hlog' : (2 : ℚ) ^ m.log2 ≤ m := by exact_mod_cast (Nat.le_log2 hm0).mp le_rfl
  have hlog'' : (m : ℚ) + 1 ≤ 2 ^ (m.log2 + 1) := by exact_mod_cast Nat.lt_log2_self
  have hpos := two_zpow_pos e
  -- the binade of the rational is that of the mantissa
  have hge : (2 : ℚ) ^ (e + m.log2) ≤ q := by
    rw [zpow_add_natCast]
    exact (mul_le_mul_of_nonneg_right hlog' hpos.le).trans hlow
  have hlt : q < (2 : ℚ) ^ (e + (m.log2 + 1 : ℕ)) := by
    rw [zpow_add_natCast]
    exact hhigh.trans_le (mul_le_mul_of_nonneg_right hlog'' hpos.le)
  have hleast : (-1000 : ℤ) < e + (m.log2 + 1 : ℕ) :=
    (zpow_lt_zpow_iff_right₀ (by norm_num)).mp (hq.low.trans_lt hlt)
  have hgreatest : e + (m.log2 : ℤ) < 1000 :=
    (zpow_lt_zpow_iff_right₀ (by norm_num)).mp (hge.trans_lt hq.high)
  have htarget : Format.binary64.targetExponent (totalExponent m e) =
      max ((m.log2 : ℤ) + 1 + e - 53) (-1074) := rfl
  refine ⟨m.log2 + e - 52, by rw [htarget]; omega, by omega, by omega, by omega, ?_, ?_⟩
  · have hsum : (m.log2 : ℤ) + e - 52 + (52 : ℕ) = e + m.log2 := by omega
    rwa [← zpow_add_natCast, hsum]
  · have hsum : (m.log2 : ℤ) + e - 52 + (53 : ℕ) = e + (m.log2 + 1 : ℕ) := by omega
    rw [← zpow_add_natCast, hsum]
    exact hlt.le

/-- The second shift of a rounding takes back the one bit that a carry may have added. -/
theorem shift_carry {r : ℕ} {t : ℤ} (hlow : 2 ^ 52 ≤ r) (hhigh : r ≤ 2 ^ 53) (hleast : -1074 ≤ t)
    (hgreatest : t ≤ 970) :
    ∃ m e, (shiftToTargetExponent Format.binary64 r t .exact).1.mantissa = m ∧
      (shiftToTargetExponent Format.binary64 r t .exact).2 = e ∧ IsNormal m e ∧
      (m : ℚ) * 2 ^ e = r * 2 ^ t := by
  have htarget : Format.binary64.targetExponent (totalExponent r t) =
      max ((r.log2 : ℤ) + 1 + t - 53) (-1074) := rfl
  unfold shiftToTargetExponent
  rw [htarget]
  rcases hhigh.lt_or_eq with hlt | rfl
  · have hlog : r.log2 < 53 := (Nat.log2_lt (by omega)).mpr hlt
    rw [Scalar.shiftToExponent_of_le r .exact (by omega)]
    exact ⟨r, t, rfl, rfl, ⟨hlow, hlt, hleast, by omega⟩, rfl⟩
  · rw [Nat.log2_two_pow]
    have hone : (max (((53 : ℕ) : ℤ) + 1 + t - 53) (-1074) - t).toNat = 1 := by omega
    simp only [shiftToExponent, hone]
    refine ⟨2 ^ 52, t + 1, rfl, rfl, ⟨le_rfl, by norm_num, by omega, by omega⟩, ?_⟩
    rw [zpow_add_one₀ (by norm_num)]
    push_cast
    ring

/-- Rounding gives a normal number within half a unit of the last place. -/
theorem roundWithAccuracy_normal (s : Sign) {m : ℕ} {e : ℤ} {accuracy : Accuracy} {q : ℚ}
    (hm : 2 ^ 52 ≤ m) (hstands : Stands (.ofMantissaAndAccuracy m accuracy) (q / 2 ^ e))
    (hq : InRange q) :
    ∃ m' e' hm', roundWithAccuracy Format.binary64 s m e accuracy = .finite s m' e' hm' ∧
      IsNormal m' e' ∧ |(m' : ℚ) * 2 ^ e' - q| ≤ q / 2 ^ 53 ∧
      (Short q → (m' : ℚ) * 2 ^ e' = q) := by
  have hbounds := hstands.bounds
  rw [mantissa_ofMantissaAndAccuracy, le_div_iff₀ (two_zpow_pos e),
    div_lt_iff₀ (two_zpow_pos e)] at hbounds
  obtain ⟨t, htarget, hle, hleast, hgreatest, hlow, hhigh⟩ :=
    target_bounds hm hq hbounds.1 hbounds.2
  have hpos := two_zpow_pos t
  -- the bits below the target exponent are shifted out, and what they were is remembered
  have hfirst : shiftToTargetExponent Format.binary64 m e accuracy =
      (ExtendedMantissa.ofMantissaAndAccuracy m accuracy >>> (t - e).toNat, t) := by
    simp only [shiftToTargetExponent, shiftToExponent, htarget]
    congr 1
    omega
  have hshifted : Stands (ExtendedMantissa.ofMantissaAndAccuracy m accuracy >>> (t - e).toNat)
      (q / 2 ^ t) := by
    have hpow : (2 : ℚ) ^ e * 2 ^ (t - e).toNat = 2 ^ t := by
      rw [mul_comm, ← zpow_add_natCast]
      congr 1
      omega
    have h := hstands.shiftRight (t - e).toNat
    rwa [div_div, hpow] at h
  generalize ExtendedMantissa.ofMantissaAndAccuracy m accuracy >>> (t - e).toNat = em at *
  have hrounded := hshifted.roundedMantissa_eq
  -- rounding does not leave the range of mantissas, except to its end, where the exponent goes up
  have hlow' : (2 ^ 52 : ℤ) ≤ roundEven (q / 2 ^ t) := by
    apply le_roundEven
    rw [le_div_iff₀ hpos]
    exact_mod_cast hlow
  have hhigh' : roundEven (q / 2 ^ t) ≤ (2 ^ 53 : ℤ) := by
    apply roundEven_le
    rw [div_le_iff₀ hpos]
    exact_mod_cast hhigh
  rw [← hrounded] at hlow' hhigh'
  obtain ⟨m', e', hm', he', hnormal, hvalue⟩ :=
    shift_carry (r := em.roundedMantissa) (by omega) (by omega) hleast hgreatest
  have hr : (em.roundedMantissa : ℚ) = roundEven (q / 2 ^ t) := by exact_mod_cast hrounded
  refine ⟨m', e', hnormal.pos, ?_, hnormal, ?_, fun hshort => ?_⟩
  · unfold roundWithAccuracy
    simp only [hfirst]
    subst hm' he'
    exact dif_neg hnormal.pos.ne'
  · have herror := abs_roundEven_sub_le (q / 2 ^ t)
    have hscale : roundEven (q / 2 ^ t) * 2 ^ t - q =
        (roundEven (q / 2 ^ t) - q / 2 ^ t) * 2 ^ t := by
      rw [sub_mul, div_mul_cancel₀ _ hpos.ne']
    rw [hvalue, hr, hscale, abs_mul, abs_of_pos hpos]
    have := mul_le_mul_of_nonneg_right herror hpos.le
    linarith
  · -- a short number has no bits below the target exponent
    obtain ⟨k, hk⟩ := hshort.exists_intCast hlow
    rw [hvalue, hr, hk, roundEven_intCast, ← hk, div_mul_cancel₀ _ hpos.ne']

/-! ## Operations -/

/-- The number is positive and normal and stands for the rational. -/
def Holds (x : Float) (q : ℚ) : Prop :=
  ∃ m e hm, x.toModel.unpack = .finite .positive m e hm ∧ IsNormal m e ∧ q = m * 2 ^ e

/-- The number stands for a rational within half a unit of its last place, and for one of 53 bits
exactly. -/
def Rounds (x : Float) (q : ℚ) : Prop :=
  ∃ r, Holds x r ∧ |r - q| ≤ q / 2 ^ 53 ∧ (Short q → r = q)

variable {x y : Float} {p q : ℚ}

theorem Holds.pos (h : Holds x q) : 0 < q := by
  obtain ⟨m, e, hm, -, -, rfl⟩ := h
  have := two_zpow_pos e
  positivity

theorem Rounds.holds (h : Rounds x q) (hq : Short q) : Holds x q := by
  obtain ⟨r, hr, -, hexact⟩ := h
  rwa [← hexact hq]

theorem rounds_pack {m : ℕ} {e : ℤ} {accuracy : Accuracy} (hm : 2 ^ 52 ≤ m)
    (hstands : Stands (.ofMantissaAndAccuracy m accuracy) (q / 2 ^ e)) (hq : InRange q) :
    Rounds (.ofModel (.pack (roundWithAccuracy Format.binary64 .positive m e accuracy))) q := by
  obtain ⟨m', e', hm', hround, hnormal, herror, hexact⟩ :=
    roundWithAccuracy_normal .positive hm hstands hq
  rw [hround]
  exact ⟨m' * 2 ^ e', ⟨m', e', hm', unpack_pack _ hm' hnormal, hnormal, rfl⟩, herror, hexact⟩

theorem Holds.mul (hx : Holds x p) (hy : Holds y q) (h : InRange (p * q)) :
    Rounds (x * y) (p * q) := by
  obtain ⟨m, d, hm, hxm, hmn, rfl⟩ := hx
  obtain ⟨n, e, hn, hyn, hnn, rfl⟩ := hy
  have hmul : x * y = .ofModel (.pack (.mul Format.binary64 x.toModel.unpack y.toModel.unpack)) :=
    rfl
  rw [hmul, hxm, hyn]
  refine rounds_pack (hmn.ge.trans (Nat.le_mul_of_pos_right m hn)) ?_ h
  have hvalue : (m : ℚ) * 2 ^ d * (n * 2 ^ e) / 2 ^ (d + e) = (m * n : ℕ) := by
    have := two_zpow_pos d
    have := two_zpow_pos e
    rw [zpow_add₀ (by norm_num)]
    push_cast
    field_simp
  rw [hvalue]
  exact stands_exact _

/-- The quotient of two normal mantissas is taken to at least 53 bits. -/
theorem divCore_normal {m n : ℕ} {d e : ℤ} (hm : IsNormal m d) (hn : IsNormal n e)
    (h : -1002 < d - e) :
    divCore Format.binary64 m d n e =
      ((m <<< 53) / n, d - e - 53, accuracyOfFraction ((m <<< 53) % n) n) := by
  have htarget : Format.binary64.targetExponent (totalExponent m d - totalExponent n e) =
      max ((m.log2 : ℤ) + 1 + d - (n.log2 + 1 + e) - 53) (-1074) := rfl
  have hmin : min (d - e) (max ((m.log2 : ℤ) + 1 + d - (n.log2 + 1 + e) - 53) (-1074)) =
      d - e - 53 := by
    rw [hm.log2, hn.log2]
    omega
  have hshift : (d - e - (d - e - 53)).toNat = 53 := by omega
  simp only [divCore, htarget, hmin, hshift]

/-- The quotient of two normal mantissas is below 2, so the exponents tell its binade. -/
theorem lt_sub_of_inRange {m n : ℕ} {d e : ℤ} (hm : IsNormal m d) (hn : IsNormal n e)
    (h : InRange (m * 2 ^ d / (n * 2 ^ e))) : -1002 < d - e := by
  have hpos := two_zpow_pos d
  have hpos' := two_zpow_pos e
  have hm' : (m : ℚ) < 2 ^ 53 := by exact_mod_cast hm.lt
  have hn' : (2 : ℚ) ^ 52 ≤ n := by exact_mod_cast hn.ge
  have hlt : (m : ℚ) * 2 ^ d / (n * 2 ^ e) < 2 ^ (d - e + (1 : ℕ)) := by
    have hn0 : (0 : ℚ) < n := lt_of_lt_of_le (by norm_num) hn'
    have hscale : (2 : ℚ) ^ (d - e + (1 : ℕ)) * (n * 2 ^ e) = 2 * n * 2 ^ d := by
      rw [zpow_add_natCast, zpow_sub₀ (by norm_num)]
      field_simp
    rw [div_lt_iff₀ (mul_pos hn0 hpos'), hscale]
    exact mul_lt_mul_of_pos_right (by linarith) hpos
  have := (zpow_lt_zpow_iff_right₀ (by norm_num)).mp (h.low.trans_lt hlt)
  push_cast at this
  omega

theorem Holds.div (hx : Holds x p) (hy : Holds y q) (h : InRange (p / q)) :
    Rounds (x / y) (p / q) := by
  obtain ⟨m, d, hm, hxm, hmn, rfl⟩ := hx
  obtain ⟨n, e, hn, hyn, hnn, rfl⟩ := hy
  have hdiv : x / y = .ofModel (.pack (.div Format.binary64 x.toModel.unpack y.toModel.unpack)) :=
    rfl
  have hround : UnpackedFloat.div Format.binary64 (.finite .positive m d hm)
      (.finite .positive n e hn) = roundWithAccuracy Format.binary64 .positive
        (divCore Format.binary64 m d n e).1 (divCore Format.binary64 m d n e).2.1
        (divCore Format.binary64 m d n e).2.2 := rfl
  rw [hdiv, hxm, hyn, hround, divCore_normal hmn hnn (lt_sub_of_inRange hmn hnn h)]
  have hvalue : (m : ℚ) * 2 ^ d / (n * 2 ^ e) / 2 ^ (d - e - 53) = ((m * 2 ^ 53 : ℕ) : ℚ) / n := by
    have hpos := two_zpow_pos d
    have hpos' := two_zpow_pos e
    rw [zpow_sub₀ (by norm_num), zpow_sub₀ (by norm_num)]
    push_cast
    field_simp
  rw [Nat.shiftLeft_eq]
  refine rounds_pack ?_ ?_ h
  · rw [Nat.le_div_iff_mul_le hn]
    calc 2 ^ 52 * n ≤ 2 ^ 52 * 2 ^ 53 := Nat.mul_le_mul_left _ hnn.lt.le
      _ ≤ m * 2 ^ 53 := Nat.mul_le_mul_right _ hmn.ge
  · dsimp only
    rw [hvalue]
    exact stands_fraction _ hn

/-- Whole numbers of 53 bits are converted exactly. -/
theorem holds_wordFloat {w : ℕ} (hw : 0 < w) (hlt : w < 2 ^ 53) :
    Holds (Json.Reader.wordFloat w) w := by
  have hlog : w.log2 < 53 := (Nat.log2_lt hw.ne').mpr hlt
  have hlow : 2 ^ w.log2 ≤ w := (Nat.le_log2 hw.ne').mp le_rfl
  have hword : (UInt64.ofNat w).toNat = w := by
    rw [UInt64.toNat_ofNat']
    omega
  have htarget : Format.binary64.targetExponent (totalExponent w 0) =
      max ((w.log2 : ℤ) + 1 + 0 - 53) (-1074) := rfl
  have hshift : (0 - max ((w.log2 : ℤ) + 1 + 0 - 53) (-1074)).toNat = 52 - w.log2 := by omega
  have hround : UnpackedFloat.round Format.binary64 .positive w 0 = roundWithAccuracy
      Format.binary64 .positive (w <<< (52 - w.log2)) (0 - (52 - w.log2 : ℕ)) .exact := by
    simp only [UnpackedFloat.round, decreaseExponent, htarget, hshift]
  have hfloat : Json.Reader.wordFloat w =
      .ofModel (.pack (UnpackedFloat.round Format.binary64 .positive w 0)) := by
    have hnormalize : UnpackedFloat.normalize Format.binary64 (w : ℤ) 0 .positive =
        UnpackedFloat.round Format.binary64 .positive w 0 := by
      unfold UnpackedFloat.normalize
      rw [Int.compare_eq_gt.mpr (by omega)]
      simp
    have hmodel : Json.Reader.wordFloat w = .ofModel (.pack (UnpackedFloat.normalize
        Format.binary64 ((UInt64.ofNat w).toNat : ℤ) 0 .positive)) := rfl
    rw [hmodel, hword, hnormalize]
  -- the shift brings the leading bit to the top of the mantissa, so that nothing is rounded
  have hmantissa : 2 ^ 52 ≤ w <<< (52 - w.log2) := by
    rw [Nat.shiftLeft_eq]
    calc 2 ^ 52 = 2 ^ w.log2 * 2 ^ (52 - w.log2) := by
          rw [← pow_add]
          congr 1
          omega
      _ ≤ w * 2 ^ (52 - w.log2) := Nat.mul_le_mul_right _ hlow
  have hrounds : Rounds (Json.Reader.wordFloat w) w := by
    rw [hfloat, hround]
    refine rounds_pack hmantissa ?_ ⟨?_, ?_⟩
    · have hvalue : (w : ℚ) / 2 ^ (0 - (52 - w.log2 : ℕ) : ℤ) = (w <<< (52 - w.log2) : ℕ) := by
        rw [Nat.shiftLeft_eq, zero_sub, zpow_neg, zpow_natCast, div_inv_eq_mul]
        push_cast
        rfl
      rw [hvalue]
      exact stands_exact _
    · have : (1 : ℚ) ≤ w := by exact_mod_cast hw
      refine le_trans ?_ this
      exact zpow_le_one_of_nonpos₀ (by norm_num) (by norm_num)
    · have : (w : ℚ) < 2 ^ 53 := by exact_mod_cast hlt
      refine this.trans_le ?_
      rw [← zpow_natCast]
      exact zpow_le_zpow_right₀ (by norm_num) (by norm_num)
  exact hrounds.holds ⟨w, 0, hlt, by simp⟩

/-- The conversion to a scalar rounds what is held, with the sign that is put in front of it. -/
theorem Holds.rank_ofFloat (h : Holds x q) (negative : Bool) :
    rank (.ofFloat (Json.Reader.withSign negative x)) =
      nearest (if negative then -q else q) := by
  obtain ⟨m, e, hm, hx, hnormal, rfl⟩ := h
  have hsigned : ∀ s : Sign, ∀ y : Float, y.toModel.unpack = .finite s m e hm →
      rank (.ofFloat y) = nearest ((s.apply m : ℤ) * 2 ^ e) := by
    intro s y hy
    unfold Scalar.ofFloat
    rw [hy]
    exact Scalar.rank_round hm
  cases negative with
  | false => simpa [Sign.apply, Json.Reader.withSign] using hsigned .positive x hx
  | true =>
    have hneg : (-x).toModel.unpack = .finite .negative m e hm := by
      have hmodel : -x = .ofModel (.pack x.toModel.unpack.neg) := rfl
      rw [hmodel, hx]
      exact unpack_pack .negative hm hnormal
    simpa [Sign.apply, Json.Reader.withSign] using hsigned .negative (-x) hneg

end PlantGrowth.Binary64
