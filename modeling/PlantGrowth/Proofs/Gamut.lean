import PlantGrowth.Proofs.LatticeNoise
import PlantGrowth.Proofs.SwayBounds
import PlantGrowth.Colour.Palette

/-!
# Colours in gamut

The four channels of a colour are in `[0, 1]` (`Rgba.InGamut`) whenever its hue is finite and its
saturation, brightness and opacity are numbers, however large, negative or infinite they are, and
so are those of the leaf colours that a palette samples (`colours_inGamut`).

Saturation, brightness and opacity are clamped. The hue is only wrapped, and may be wrapped to the
full circle (`Scalar.exists_value_wrap`); all sectors take their channels from the same three
parts, so it does not matter which one the hue falls into (`Rgba.sector_forall`). To each part the
rest of the brightness is added, and this rest is a rounded difference. It can be too great by half
a unit of the numbers below one (`Scalar.value_le_add_half`), which is only a quarter of the
distance from one to the next number and is lost when the sum is rounded
(`Scalar.nearest_le_nearest_one`).
-/

set_option autoImplicit false

namespace PlantGrowth

open Scalar Rounding

/-! ## Rounding below one -/

namespace Scalar

open Float.Model (Format UnpackedFloat totalExponent)
open Float.Model.UnpackedFloat

variable {x y : Scalar} {p q v : ℚ}

/-- What is rounded up goes up by half a unit at most. -/
theorem roundEven_le_add_half (q : ℚ) : (roundEven q : ℚ) ≤ q + 1 / 2 := by
  by_contra hlt
  have hle := roundEven_le_of_lt_half (k := roundEven q - 1) (q := q) (by push_cast; linarith)
  omega

/-- The number to which a rational is rounded, as a mantissa and an exponent. -/
theorem value_of_rank_nearest (hx : x.rank = nearest q) (hq : 0 ≤ q) (hfinite : x.isFinite = true) :
    x.value? = some ((roundEven (q / 2 ^ exponentOf q) : ℚ) * 2 ^ exponentOf q) := by
  have he := isExponentOf_exponentOf hq
  obtain ⟨hnonneg, hle, hge⟩ := roundEven_div_bounds hq he
  have htop := (isFinite_iff.mp hfinite).2
  have hrank : nearest q = min (rankAt (roundEven (q / 2 ^ exponentOf q)) (exponentOf q)) top := by
    rw [nearest, if_pos hq, rankOf]
  rw [hx, hrank] at htop
  generalize roundEven (q / 2 ^ exponentOf q) = n at *
  -- a mantissa that is rounded up to one bit more is a power of two, with the next exponent
  obtain ⟨m, e, hm, hvalue, hsame⟩ : ∃ m e : ℤ, IsMantissa m e ∧
      (n : ℚ) * 2 ^ exponentOf q = m * 2 ^ e ∧ rankAt n (exponentOf q) = rankAt m e := by
    rcases hle.lt_or_eq with hlt | rfl
    · exact ⟨n, _, ⟨hnonneg, hlt, hge, he.least⟩, rfl, rfl⟩
    · have hleast := he.least
      refine ⟨2 ^ 23, exponentOf q + 1, ⟨by norm_num, by norm_num, Or.inr le_rfl, by omega⟩, ?_, ?_⟩
      · rw [zpow_add_one₀ (by norm_num)]
        push_cast
        ring
      · simp only [rankAt]
        omega
  obtain ⟨u, hu⟩ := exists_denotes_mantissa hm (by omega)
  rw [hvalue]
  refine value_of_rank hu ?_
  rw [hx, hrank, hsame, nearest_of_mantissa hm]

/-- Below one, rounding adds at most half of the last place. -/
theorem value_le_add_half (hx : x.rank = nearest q) (hv : x.value? = some v) (h0 : 0 ≤ q)
    (h1 : q ≤ 1) : v ≤ q + 1 / 2 ^ 25 := by
  rcases h1.lt_or_eq with hlt | rfl
  · rw [value_of_rank_nearest hx h0 (isFinite_of_value hv)] at hv
    obtain rfl := Option.some.inj hv
    have he := isExponentOf_exponentOf h0
    have hexp : exponentOf q ≤ -24 := by
      by_contra hgt
      have hge := he.ge.resolve_left (by omega)
      have hpow : (2 : ℚ) ^ (-23 : ℤ) ≤ 2 ^ exponentOf q :=
        zpow_le_zpow_right₀ (by norm_num) (by omega)
      norm_num at hpow hge
      linarith
    have hpow : (2 : ℚ) ^ exponentOf q ≤ 2 ^ (-24 : ℤ) := zpow_le_zpow_right₀ (by norm_num) hexp
    have hpos := two_zpow_pos (exponentOf q)
    calc (roundEven (q / 2 ^ exponentOf q) : ℚ) * 2 ^ exponentOf q
        ≤ (q / 2 ^ exponentOf q + 1 / 2) * 2 ^ exponentOf q :=
          mul_le_mul_of_nonneg_right (roundEven_le_add_half _) hpos.le
      _ = q + 2 ^ exponentOf q / 2 := by rw [add_mul, div_mul_cancel₀ _ hpos.ne']; ring
      _ ≤ q + 1 / 2 ^ 25 := by norm_num at hpow ⊢; linarith
  · have hone : x.value? = some 1 := value_of_rank (denotes_unpack value_one) hx
    obtain rfl := Option.some.inj (hone.symm.trans hv)
    norm_num

/-- Above one the numbers are further apart, so that much is rounded away again. -/
theorem nearest_le_nearest_one (h : q ≤ 1 + 1 / 2 ^ 25) : nearest q ≤ nearest 1 := by
  refine (nearest_mono h).trans ?_
  have hexp : IsExponentOf (1 + 1 / 2 ^ 25) (-23) := by
    constructor <;> norm_num
  have hround : roundEven ((1 + 1 / 2 ^ 25) / 2 ^ (-23 : ℤ)) ≤ 2 ^ 23 :=
    roundEven_le_of_lt_half (by norm_num)
  have hone : nearest 1 = rankAt (2 ^ 23) (-23) := by
    rw [← rank_eq_nearest value_one]
    decide
  rw [nearest, if_pos (by norm_num), rankOf, hexp.eq_exponentOf (by norm_num), hone]
  refine (min_le_left _ _).trans ?_
  simp only [rankAt]
  omega

/-- A part of a number in `[0, 1]` and the rounded rest make up no more than one. -/
theorem unit_bounds_add_rest {base part : Scalar} {s t c : ℚ} (hbase : base.rank = nearest (t - s))
    (hst : s ≤ t) (ht1 : t ≤ 1) (hc : part.value? = some c) (hc0 : 0 ≤ c) (hcs : c ≤ s) :
    0 ≤ part + base ∧ part + base ≤ 1 := by
  obtain ⟨hbase0, hbase1⟩ := unit_bounds_of_rank hbase (by linarith) (by linarith)
  obtain ⟨b, hb, hb0, -⟩ := exists_value_of_le hbase0 value_one hbase1
  have hhalf := value_le_add_half hbase hb (by linarith) (by linarith)
  have hrank := rank_add hc hb
  refine ⟨nonneg_of_rank hrank (by linarith), ?_⟩
  rw [le_iff, hrank, rank_eq_nearest value_one]
  exact ⟨nearest_le_nearest_one (by linarith), (nearest_bounds 1).2⟩

/-! ## Remainders -/

theorem shift_mantissa_zero (n : ℕ) :
    ExtendedMantissa.ofMantissaAndAccuracy 0 .exact >>> n = .ofMantissaAndAccuracy 0 .exact := by
  change n.repeat ExtendedMantissa.shiftRightOne _ = _
  induction n with
  | zero => rfl
  | succ n ih =>
    rw [Nat.repeat, ih]
    rfl

/-- Without a mantissa nothing is left after rounding. -/
theorem round_mantissa_zero (s : Sign) (e : ℤ) :
    UnpackedFloat.round .binary32 s 0 e = .zero s := by
  have hdecrease : ∀ t, (decreaseExponent 0 e t).1 = 0 := by
    intro t
    simp [decreaseExponent]
  have hrounded : (ExtendedMantissa.ofMantissaAndAccuracy 0 .exact).roundedMantissa = 0 := rfl
  unfold UnpackedFloat.round roundWithAccuracy shiftToTargetExponent shiftToExponent
  simp only [hdecrease, shift_mantissa_zero, hrounded]
  rfl

theorem rank_pack_round (s : Sign) (m : ℕ) (e : ℤ) :
    rank (.ofModel (.pack (UnpackedFloat.round Format.binary32 s m e))) =
      nearest ((s.apply m : ℤ) * 2 ^ e) := by
  rcases Nat.eq_zero_or_pos m with rfl | hm
  · rw [round_mantissa_zero, rank_pack_zero]
    cases s <;> simp [Sign.apply, nearest_zero]
  · exact rank_round hm

/-- A finite number is read as zero, or as a sign, a mantissa and an exponent. -/
theorem unpack_of_value (h : x.value? = some q) :
    ((∃ s, x.toModel.unpack = .zero s) ∧ q = 0) ∨
      ∃ s m e hm, x.toModel.unpack = .finite s m e hm ∧ q = (s.apply m : ℤ) * 2 ^ e := by
  have hdenotes := denotes_unpack h
  generalize x.toModel.unpack = u at hdenotes
  cases hdenotes with
  | zero s => exact Or.inl ⟨⟨s, rfl⟩, rfl⟩
  | finite s hm _ _ => exact Or.inr ⟨s, _, _, hm, rfl, rfl⟩

theorem abs_apply_mul (s : Sign) (m : ℕ) (e : ℤ) :
    |((s.apply m : ℤ) : ℚ) * 2 ^ e| = m * 2 ^ e := by
  have hpos := two_zpow_pos e
  cases s <;> simp [Sign.apply, abs_mul, abs_of_pos hpos]

/-- The remainder of two mantissas on a common grid is below the divisor. -/
theorem remainder_lt (a : ℕ) {n : ℕ} {f unit : ℤ} (hn : 0 < n) (hunit : unit ≤ f) :
    ((a % (n <<< (f - unit).toNat) : ℕ) : ℚ) * 2 ^ unit < n * 2 ^ f := by
  have hvalue := decreaseExponent_value n f unit
  rw [decreaseExponent_snd, min_eq_right hunit] at hvalue
  have hdivisor : 0 < n <<< (f - unit).toNat := by
    rw [Nat.shiftLeft_eq]
    positivity
  rw [← hvalue]
  refine mul_lt_mul_of_pos_right ?_ (two_zpow_pos unit)
  exact_mod_cast Nat.mod_lt a hdivisor

/-- The remainder is no further from zero than the divisor, and has the sign of the dividend. -/
theorem exists_value_rem (hx : x.value? = some p) (hy : y.value? = some q) (hq : 0 < q) :
    ∃ r, (rem x y).value? = some r ∧ |r| ≤ q ∧ (0 ≤ p → 0 ≤ r) := by
  rcases unpack_of_value hy with ⟨-, rfl⟩ | ⟨s', n, f, hn, hyu, hqn⟩
  · exact absurd hq (lt_irrefl 0)
  have hq' : q = n * 2 ^ f := by rw [← abs_apply_mul s', ← hqn, abs_of_pos hq]
  rcases unpack_of_value hx with ⟨⟨s, hxu⟩, rfl⟩ | ⟨s, m, e, hm, hxu, rfl⟩
  · -- zero is its own remainder
    have hrem : rem x y = x := by rw [rem, hxu, hyu]
    exact ⟨0, by rw [hrem, hx], by simpa using hq.le, fun _ => le_rfl⟩
  · obtain ⟨rest, hrest⟩ : ∃ rest, rest =
      (m <<< (e - min e f).toNat) % (n <<< (f - min e f).toNat) := ⟨_, rfl⟩
    have hlt := remainder_lt (m <<< (e - min e f).toNat) hn (min_le_right e f)
    rw [← hrest, ← hq'] at hlt
    have hrem : (rem x y).rank = nearest ((s.apply rest : ℤ) * 2 ^ min e f) := by
      rw [← rank_pack_round, rem, hxu, hyu, hrest]
      rfl
    have habs : |((s.apply rest : ℤ) : ℚ) * 2 ^ min e f| ≤ q := by
      rw [abs_apply_mul]
      exact hlt.le
    obtain ⟨r, hr, hrq⟩ := exists_value_within hrem hy (nearest_mono habs)
    refine ⟨r, hr, hrq, fun hp => (value_nonneg_iff hr).mp (nonneg_of_rank hrem ?_)⟩
    cases s with
    | positive =>
      simp only [Sign.apply]
      positivity
    | negative =>
      exfalso
      have hm' : (0 : ℚ) < m * 2 ^ e := mul_pos (Nat.cast_pos.mpr hm) (two_zpow_pos e)
      simp only [Sign.apply] at hp
      push_cast at hp
      linarith

/-- Moved into the non-negative numbers, the remainder is between zero and the divisor, which a
tiny negative remainder may be rounded up to. -/
theorem exists_value_wrap (hx : x.value? = some p) (hy : y.value? = some q) (hq : 0 < q) :
    ∃ r, (wrap x y).value? = some r ∧ 0 ≤ r ∧ r ≤ q := by
  obtain ⟨r, hr, hrq, -⟩ := exists_value_rem hx hy hq
  obtain ⟨hlow, hhigh⟩ := abs_le.mp hrq
  have hyabs := value_abs hy
  rw [abs_of_pos hq] at hyabs
  simp only [wrap]
  split
  · rename_i hneg
    have hr0 := (value_lt_iff hr value_zero).mp hneg
    have hrank := rank_add hr hyabs
    have hle : rem x y + y.abs ≤ y := le_of_rank hrank (rank_eq_nearest hy) (by linarith)
    exact exists_value_of_le (nonneg_of_rank hrank (by linarith)) hy hle
  · rename_i hpos
    exact ⟨r, hr, not_lt.mp fun h => hpos ((value_lt_iff hr value_zero).mpr h), hhigh⟩

/-! ## Products and quotients -/

/-- A product in `[0, 1]` is not above its first factor. -/
theorem exists_value_mul_le (hx : x.value? = some p) (hp0 : 0 ≤ p) (hp1 : p ≤ 1)
    (hy : y.value? = some q) (hq0 : 0 ≤ q) (hq1 : q ≤ 1) :
    ∃ r, (x * y).value? = some r ∧ 0 ≤ r ∧ r ≤ p := by
  obtain ⟨r, hr, hr0, hrank⟩ := exists_value_share hx hp0 hp1 hy hq0
  refine ⟨r, hr, hr0, value_le_of_nearest_le hr hx ?_⟩
  rw [hrank]
  exact nearest_mono (mul_le_of_le_one_right hp0 hq1)

/-- A number divided by a finite one that is not zero is a number. -/
theorem rank_div_le_top (hx : x.rank ≤ top) (hy : y.value? = some q) (hq : q ≠ 0) :
    (x / y).rank ≤ top := by
  by_cases hfinite : x.isFinite = true
  · obtain ⟨p, hp⟩ := exists_value hfinite
    rw [rank_div hp hy hq]
    exact (nearest_bounds _).2
  · have hdiv : x / y = .ofModel (.pack (.div Format.binary32 x.toModel.unpack y.toModel.unpack)) :=
      rfl
    have hunpack : x.isFinite = x.toModel.unpack.isFinite := rfl
    have hread := reads_of_rank_le hx
    rw [hunpack] at hfinite
    rw [hdiv]
    generalize x.toModel.unpack = u at *
    generalize x.rank = r at hread
    cases hread with
    | zero s => exact absurd rfl hfinite
    | finite s hm hmantissa hlt => exact absurd rfl hfinite
    | infinity s =>
      rcases unpack_of_value hy with ⟨-, rfl⟩ | ⟨s', n, f, hn, hyu, -⟩
      · exact absurd rfl hq
      · rw [hyu]
        exact (rank_pack_infinity (s / s')).trans_le (by cases s / s' <;> decide)

end Scalar

/-! ## Channels -/

namespace Rgba

/-- All four channels are in `[0, 1]`. -/
structure InGamut (c : Rgba) : Prop where
  red : 0 ≤ c.r ∧ c.r ≤ 1
  green : 0 ≤ c.g ∧ c.g ≤ 1
  blue : 0 ≤ c.b ∧ c.b ≤ 1
  alpha : 0 ≤ c.a ∧ c.a ≤ 1

variable {hue saturation brightness opacity : Scalar}

theorem channel_bounds {percent : Scalar} (h : ¬ percent.isNaN = true) :
    0 ≤ channel percent ∧ channel percent ≤ 1 := by
  have hhundred : value? 100 = some 100 := value_ofNat 100 (by norm_num)
  rw [isNaN_iff, not_lt] at h
  exact clamp_bounds (by decide) (rank_div_le_top h hhundred (by norm_num))

/-- The share of the second strongest channel in the strongest one. -/
theorem exists_value_weak (hhue : hue.isFinite = true) :
    ∃ k, value? (1 - (rem (wrap hue 360 / 60) 2 - 1).abs) = some k ∧ 0 ≤ k ∧ k ≤ 1 := by
  have hcircle : value? 360 = some 360 := value_ofNat 360 (by norm_num)
  have hsixty : value? 60 = some 60 := value_ofNat 60 (by norm_num)
  have htwo : value? 2 = some 2 := value_ofNat 2 (by norm_num)
  obtain ⟨h, hh⟩ := exists_value hhue
  obtain ⟨w, hw, hw0, -⟩ := exists_value_wrap hh hcircle (by norm_num)
  obtain ⟨sixths, hsixths, hsixths0⟩ := exists_value_div hw hw0 hsixty (by norm_num)
  obtain ⟨r, hr, hr2, hr0⟩ := exists_value_rem hsixths htwo (by norm_num)
  have hr0 := hr0 hsixths0
  have hr2 := (abs_le.mp hr2).2
  -- between the multiples of two the distance to the middle is at most one
  obtain ⟨d, hd, hd1⟩ := exists_value_within (rank_sub hr value_one) value_one
    (nearest_mono (abs_le.mpr ⟨by linarith, by linarith⟩))
  have hrank := rank_sub value_one (value_abs hd)
  obtain ⟨hlow, hhigh⟩ := unit_bounds_of_rank hrank (by linarith) (by linarith [abs_nonneg d])
  obtain ⟨k, hk, hk0, hk1⟩ := exists_value_of_le hlow value_one hhigh
  exact ⟨k, hk, hk0, hk1⟩

/-- Each of the three channels is the strong one, the weak one or empty. -/
theorem sector_forall {P : Scalar → Prop} (sixths : Scalar) {strong weak : Scalar}
    (hstrong : P strong) (hweak : P weak) (hzero : P 0) :
    P (sector sixths strong weak).1 ∧ P (sector sixths strong weak).2.1 ∧
      P (sector sixths strong weak).2.2 := by
  unfold sector
  split
  · exact ⟨hstrong, hweak, hzero⟩
  · exact ⟨hweak, hstrong, hzero⟩
  · exact ⟨hzero, hstrong, hweak⟩
  · exact ⟨hzero, hweak, hstrong⟩
  · exact ⟨hweak, hzero, hstrong⟩
  · exact ⟨hstrong, hzero, hweak⟩

theorem inGamut_ofHsb (hhue : hue.isFinite = true) (hsaturation : ¬ saturation.isNaN = true)
    (hbrightness : ¬ brightness.isNaN = true) (hopacity : ¬ opacity.isNaN = true) :
    (ofHsb hue saturation brightness opacity).InGamut := by
  obtain ⟨hs0, hs1⟩ := channel_bounds hsaturation
  obtain ⟨hv0, hv1⟩ := channel_bounds hbrightness
  obtain ⟨s, hs, hs0, hs1⟩ := exists_value_of_le hs0 value_one hs1
  obtain ⟨v, hv, hv0, hv1⟩ := exists_value_of_le hv0 value_one hv1
  obtain ⟨k, hk, hk0, hk1⟩ := exists_value_weak hhue
  -- the strong channel is a share of the brightness, and the weak one a share of the strong one
  obtain ⟨c, hc, hc0, hcv⟩ := exists_value_mul_le hv hv0 hv1 hs hs0 hs1
  obtain ⟨w, hw, hw0, hwc⟩ := exists_value_mul_le hc hc0 (hcv.trans hv1) hk hk0 hk1
  have hbase := rank_sub hv hc
  -- whatever the sector, the rest of the brightness is added to parts of it
  generalize hb : channel brightness - channel brightness * channel saturation = base at hbase
  obtain ⟨hred, hgreen, hblue⟩ := sector_forall (P := fun part => 0 ≤ part + base ∧ part + base ≤ 1)
    (wrap hue 360 / 60)
    (unit_bounds_add_rest hbase hcv hv1 hc hc0 le_rfl)
    (unit_bounds_add_rest hbase hcv hv1 hw hw0 hwc)
    (unit_bounds_add_rest hbase hcv hv1 value_zero le_rfl hc0)
  subst hb
  exact ⟨hred, hgreen, hblue, channel_bounds hopacity⟩

end Rgba

/-! ## Leaf colours -/

namespace Palette

variable {p : Palette} {c : Rgba}

/-- The three draws of a leaf colour, and the colour made of them. -/
theorem leafColour_eq_ok {σ : Type} [RandomSource σ] {source source' : σ}
    (h : p.leafColour source = .ok (c, source')) :
    ∃ turn source₁ saturation source₂ brightness,
      RandomSource.range 0 (p.leafHue.2 - p.leafHue.1) source = .ok (turn, source₁) ∧
      RandomSource.range (p.leafSaturation.1 + p.shift.saturation)
        (p.leafSaturation.2 + p.shift.saturation) source₁ = .ok (saturation, source₂) ∧
      RandomSource.range (p.leafBrightness.1 + p.shift.brightness)
        (p.leafBrightness.2 + p.shift.brightness) source₂ = .ok (brightness, source') ∧
      c = .ofHsb (wrap (p.leafHue.1 + p.shift.hue + turn) 360) saturation brightness
        (p.leafAlpha + p.shift.alpha) := by
  simp only [leafColour, Outcome.except_bind_eq_ok, Outcome.except_pure_eq_ok, Prod.mk.injEq] at h
  obtain ⟨⟨turn, source₁⟩, hturn, ⟨saturation, source₂⟩, hsaturation, ⟨brightness, source₃⟩,
    hbrightness, rfl, rfl⟩ := h
  exact ⟨turn, source₁, saturation, source₂, brightness, hturn, hsaturation, hbrightness, rfl⟩

theorem inGamut_ofHsb_wrap {hue saturation brightness opacity : Scalar} (hhue : hue.isFinite = true)
    (hsaturation : ¬ saturation.isNaN = true) (hbrightness : ¬ brightness.isNaN = true)
    (hopacity : ¬ opacity.isNaN = true) :
    (Rgba.ofHsb (wrap hue 360) saturation brightness opacity).InGamut := by
  have hcircle : value? 360 = some 360 := value_ofNat 360 (by norm_num)
  obtain ⟨h, hh⟩ := exists_value hhue
  obtain ⟨w, hw, -⟩ := exists_value_wrap hh hcircle (by norm_num)
  exact Rgba.inGamut_ofHsb (isFinite_of_value hw) hsaturation hbrightness hopacity

/-- A sample of words is a number where the lower end is one. -/
theorem not_isNaN_of_range {σ : Type} [WordSource σ] {lo hi x : Scalar} {source source' : σ}
    (hlo : ¬ lo.isNaN = true) (h : RandomSource.range lo hi source = .ok (x, source')) :
    ¬ x.isNaN = true := by
  by_cases hlt : lo < hi
  · have hle : lo ≤ hi := le_iff.mpr ⟨(lt_iff.mp hlt).1.le, (lt_iff.mp hlt).2⟩
    rw [isNaN_iff, not_lt]
    exact (le_iff.mp (RandomSource.Bounded.le_range hle h)).2
  · have hsame : RandomSource.range lo hi source = .ok (lo, source) :=
      WordSource.range_of_not_lt hlt source
    rw [hsame] at h
    cases h
    exact hlo

end Palette

/-- **Colours are in gamut.** A finite hue and any numbers for saturation, brightness and opacity
make a colour with channels in `[0, 1]`. So does every leaf colour whose hue, the turn drawn for it
included, is finite and whose other three operands are numbers; from a source of words these are
numbers if the lower ends of the two ranges are. -/
theorem colours_inGamut :
    (∀ hue saturation brightness opacity : Scalar, hue.isFinite = true →
      ¬ saturation.isNaN = true → ¬ brightness.isNaN = true → ¬ opacity.isNaN = true →
      (Rgba.ofHsb hue saturation brightness opacity).InGamut) ∧
    (∀ (σ : Type) [RandomSource σ] (p : Palette) (source source' : σ) (c : Rgba),
      p.leafColour source = .ok (c, source') →
      ∃ turn source₁ saturation source₂ brightness,
        RandomSource.range 0 (p.leafHue.2 - p.leafHue.1) source = .ok (turn, source₁) ∧
        RandomSource.range (p.leafSaturation.1 + p.shift.saturation)
          (p.leafSaturation.2 + p.shift.saturation) source₁ = .ok (saturation, source₂) ∧
        RandomSource.range (p.leafBrightness.1 + p.shift.brightness)
          (p.leafBrightness.2 + p.shift.brightness) source₂ = .ok (brightness, source') ∧
        ((p.leafHue.1 + p.shift.hue + turn).isFinite = true → ¬ saturation.isNaN = true →
          ¬ brightness.isNaN = true → ¬ (p.leafAlpha + p.shift.alpha).isNaN = true → c.InGamut)) ∧
    (∀ (σ : Type) [WordSource σ] (p : Palette) (source source' : σ) (c : Rgba),
      p.leafColour source = .ok (c, source') →
      (∀ turn source₁, RandomSource.range 0 (p.leafHue.2 - p.leafHue.1) source =
        .ok (turn, source₁) → (p.leafHue.1 + p.shift.hue + turn).isFinite = true) →
      ¬ (p.leafSaturation.1 + p.shift.saturation).isNaN = true →
      ¬ (p.leafBrightness.1 + p.shift.brightness).isNaN = true →
      ¬ (p.leafAlpha + p.shift.alpha).isNaN = true → c.InGamut) := by
  refine ⟨fun _ _ _ _ => Rgba.inGamut_ofHsb, ?_, ?_⟩
  · intro σ _ p source source' c h
    obtain ⟨turn, source₁, saturation, source₂, brightness, hturn, hsaturation, hbrightness, rfl⟩ :=
      Palette.leafColour_eq_ok h
    exact ⟨turn, source₁, saturation, source₂, brightness, hturn, hsaturation, hbrightness,
      Palette.inGamut_ofHsb_wrap⟩
  · intro σ _ p source source' c h hhue hlow hlow' halpha
    obtain ⟨turn, source₁, saturation, source₂, brightness, hturn, hsaturation, hbrightness, rfl⟩ :=
      Palette.leafColour_eq_ok h
    exact Palette.inGamut_ofHsb_wrap (hhue turn source₁ hturn)
      (Palette.not_isNaN_of_range hlow hsaturation) (Palette.not_isNaN_of_range hlow' hbrightness)
      halpha

/-- An infinite saturation and a negative brightness are clamped, a negative hue is wrapped, and the
default palette has a leaf colour in gamut. -/
theorem colours_inGamut_default :
    (Rgba.ofHsb (-720.5) (1 / 0) (-5) 250).InGamut ∧
    ∃ c source', Palette.leafColour {} (⟨#[0], 0⟩ : Reel) = .ok (c, source') ∧ c.InGamut := by
  obtain ⟨hmade, -, hdrawn⟩ := colours_inGamut
  refine ⟨hmade _ _ _ _ (by decide) (by decide) (by decide)
    (by decide), ?_⟩
  cases hc : Palette.leafColour {} (⟨#[0], 0⟩ : Reel) with
  | error e => exact absurd hc (Palette.leafColour_ne_error (Palette.drawable_shift {}) _ e)
  | ok r =>
    obtain ⟨c, source'⟩ := r
    refine ⟨c, source', rfl, hdrawn _ _ _ _ _ hc ?_ (by decide) (by decide)
      (by decide)⟩
    -- the word zero is no turn at all
    intro turn source₁ h
    have hturn : (RandomSource.range 0 (310 - 250) (⟨#[0], 0⟩ : Reel)).toOption.map Prod.fst =
        some 0 := by decide
    have hsample : (RandomSource.range 0 (310 - 250) (⟨#[0], 0⟩ : Reel)).toOption.map Prod.fst =
        some turn := congrArg (fun r => r.toOption.map Prod.fst) h
    obtain rfl : turn = 0 := Option.some.inj (hsample.symm.trans hturn)
    decide

end PlantGrowth
