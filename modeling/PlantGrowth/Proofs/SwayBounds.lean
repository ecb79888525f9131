import PlantGrowth.Proofs.Draws
import PlantGrowth.Proofs.Increments
import PlantGrowth.Proofs.WholePart
import PlantGrowth.Wind.FlowField

/-!
# Bounds of the sway

The range of the flow field is the larger of a floor and a line that falls by `changeStep` degrees
for each level towards the trunk. A valid field that falls in this direction, `0 ≤ changeStep`,
keeps the range between its two bounds, both divided by the age of the plant, and does not widen it
towards the trunk; the turn itself is never wider than the upper bound (`FlowField.sway_bounded`).

`FlowField.isValid` does not look at the sign of the step. Where it is negative the line rises
instead, and the range leaves its upper bound (`FlowField.angleRange_rising`).

Each operation is rounded, but rounding is monotone, so that bounds of the exact results are bounds
of the rounded ones. Only the doubled range has to be exact (`Scalar.value_sub_neg_self`).
-/

set_option autoImplicit false

namespace PlantGrowth

open Scalar Rounding

namespace Scalar

variable {x y z : Scalar} {p q : ℚ}

/-! ## Monotone operations -/

/-- The more is taken from a number, the less is left. -/
theorem sub_le_sub_left (hx : x.isFinite = true) (hy : 0 ≤ y) (h : y ≤ z) : x - z ≤ x - y := by
  obtain ⟨p, hp⟩ := exists_value hx
  rcases value_or_infinite (le_trans hy h) with ⟨r, -, hr⟩ | hz
  · obtain ⟨q, hq, -, hqr⟩ := exists_value_of_le hy hr h
    exact le_of_rank (rank_sub hp hr) (rank_sub hp hq) (by linarith)
  · -- the difference to infinity is below all others
    rw [le_iff, (rank_sub_infinite hz hx).2]
    rcases value_or_infinite hy with ⟨q, -, hq⟩ | hinf
    · rw [rank_sub hp hq]
      exact nearest_bounds _
    · rw [(rank_sub_infinite hinf hx).2]
      have htop := top_pos
      omega

theorem sub_le_self (hx : x.isFinite = true) (hy : 0 ≤ y) : x - y ≤ x := by
  obtain ⟨p, hp⟩ := exists_value hx
  have hzero : (x - 0).rank = x.rank := by
    rw [rank_sub hp value_zero, sub_zero, rank_eq_nearest hp]
  have hle := sub_le_sub_left hx (by decide) hy
  rwa [le_iff, hzero, ← le_iff] at hle

/-- A finite number divided by one that is at least one. -/
theorem exists_value_div (hx : x.value? = some p) (hp : 0 ≤ p) (hy : y.value? = some q)
    (hq : 1 ≤ q) : ∃ r, (x / y).value? = some r ∧ 0 ≤ r := by
  have hq0 : 0 < q := by linarith
  have hrank := rank_div hx hy hq0.ne'
  have hle : x / y ≤ x := le_of_rank hrank (rank_eq_nearest hx) (div_le_self hp hq)
  have hnonneg : 0 ≤ x / y := nonneg_of_rank hrank (div_nonneg hp hq0.le)
  obtain ⟨r, hr, hr0, -⟩ := exists_value_of_le hnonneg hx hle
  exact ⟨r, hr, hr0⟩

theorem maxNum_le (hx : x ≤ z) (hy : x < y → y ≤ z) : maxNum x y ≤ z := by
  have hnan : ¬ x.isNaN = true := by
    have hbounds := le_iff.mp hx
    rw [isNaN_iff]
    omega
  rw [maxNum, if_neg hnan]
  split
  · rename_i hlt
    exact hy hlt
  · exact hx

/-! ## The interval around zero -/

/-- What is rounded from between a finite number and its negative stays there. -/
theorem exists_value_within (hx : x.rank = nearest p) (hy : y.value? = some q)
    (h : nearest |p| ≤ nearest q) : ∃ r, x.value? = some r ∧ |r| ≤ q := by
  have hhigh : nearest p ≤ nearest |p| := nearest_mono (le_abs_self p)
  have hlow : nearest (-|p|) ≤ nearest p := nearest_mono (neg_abs_le p)
  rw [nearest_neg] at hlow
  have hbounds := rank_lt_top hy
  rw [rank_eq_nearest hy] at hbounds
  obtain ⟨r, hr⟩ := exists_value (isFinite_iff.mpr ⟨by omega, by omega⟩ : x.isFinite = true)
  rw [rank_eq_nearest hr] at hx
  refine ⟨r, hr, abs_le.mpr ⟨value_le_of_nearest_le (value_neg hy) hr ?_,
    value_le_of_nearest_le hr hy ?_⟩⟩
  · rw [nearest_neg]
    omega
  · omega

/-- Doubling is exact unless it is too great. -/
theorem value_sub_neg_self (hx : x.value? = some p) (hp : 0 ≤ p)
    (hfinite : (x - -x).isFinite = true) : (x - -x).value? = some (2 * p) := by
  have hrank : (x - -x).rank = nearest (2 * p) := by
    rw [rank_sub hx (value_neg hx)]
    ring_nf
  have htop := (isFinite_iff.mp hfinite).2
  obtain ⟨m, e, hm, hpm, -⟩ := exists_mantissa_of_value hx hp
  -- the double has a mantissa as well: twice the mantissa, or the same one with the next exponent
  obtain ⟨n, d, hn, hpn⟩ : ∃ n d : ℤ, IsMantissa n d ∧ 2 * p = n * 2 ^ d := by
    obtain ⟨hnonneg, hlt, hge, hleast⟩ := hm
    rcases lt_or_ge m (2 ^ 23) with hsmall | hlarge
    · refine ⟨2 * m, e, ⟨by omega, by omega, Or.inl (hge.resolve_right (by omega)), hleast⟩, ?_⟩
      rw [hpm]
      push_cast
      ring
    · refine ⟨m, e + 1, ⟨hnonneg, hlt, Or.inr hlarge, by omega⟩, ?_⟩
      rw [hpm, zpow_add_one₀ (by norm_num)]
      ring
  rw [hpn] at hrank ⊢
  rw [hrank, nearest_of_mantissa hn] at htop
  obtain ⟨u, hu⟩ := exists_denotes_mantissa hn (by omega)
  exact value_of_rank hu hrank

/-- The map of `[0, 1]` to an interval around zero does not leave it. -/
theorem exists_value_remap {n : Scalar} (hx : x.value? = some p) (hp : 0 ≤ p)
    (hfinite : (x - -x).isFinite = true) (hn0 : 0 ≤ n) (hn1 : n ≤ 1) :
    ∃ q, (remap n 0 1 (-x) x).value? = some q ∧ |q| ≤ p := by
  obtain ⟨u, hu, hu0, hu1⟩ := exists_value_of_le hn0 value_one hn1
  have hspan : ¬ ((1 : Scalar) - 0 == 0) = true := by decide
  have hone : ((1 : Scalar) - 0).value? = some 1 := value_one
  -- neither the difference to zero nor the division by one changes the sample
  have hsample : ((n - 0) / (1 - 0)).value? = some u := by
    have hsub : (n - 0).value? = some u :=
      value_of_rank (denotes_unpack hu) (by rw [rank_sub hu value_zero, sub_zero])
    exact value_of_rank (denotes_unpack hu) (by rw [rank_div hsub hone one_ne_zero, div_one])
  have hdouble := value_sub_neg_self hx hp hfinite
  have hdouble0 : 0 ≤ 2 * p := by linarith
  obtain ⟨v, hv, hv0, hpart⟩ := exists_value_share hsample hu0 hu1 hdouble hdouble0
  have hv2 : v ≤ 2 * p := by
    refine value_le_of_nearest_le hv hdouble ?_
    rw [hpart]
    exact nearest_mono (mul_le_of_le_one_left hdouble0 hu1)
  rw [remap, if_neg hspan]
  refine exists_value_within (rank_add (value_neg hx) hv) hx (nearest_mono ?_)
  exact abs_le.mpr ⟨by linarith, by linarith⟩

/-- A smaller angle has no more radians. -/
theorem abs_toRadians_le (hx : x.value? = some p) (hy : y.value? = some q) (h : |p| ≤ q) :
    (toRadians x).abs ≤ toRadians y := by
  obtain ⟨d, hd, hd0, hd1⟩ : ∃ d, degree.value? = some d ∧ 0 ≤ d ∧ d ≤ 1 :=
    exists_value_of_le (by decide) value_one (by decide)
  have hq0 : 0 ≤ q := (abs_nonneg p).trans h
  have hqd : |q * d| = q * d := abs_of_nonneg (Rat.mul_nonneg hq0 hd0)
  have hranky : (toRadians y).rank = nearest (q * d) := rank_mul hy hd
  -- there are fewer radians than degrees, so the products are finite
  obtain ⟨s, hs, -⟩ := exists_value_within hranky hy
    (by rw [hqd]; exact nearest_mono (mul_le_of_le_one_right hq0 hd1))
  obtain ⟨r, hr, hrs⟩ := exists_value_within (rank_mul hx hd) hs
    (by
      rw [← rank_eq_nearest hs, hranky, abs_mul, abs_of_nonneg hd0]
      exact nearest_mono (mul_le_mul_of_nonneg_right h hd0))
  exact (value_le_iff (value_abs hr) hs).mpr hrs

/-! ## Levels of the plant -/

/-- The age by which the bounds are divided is at least one. -/
theorem exists_value_levels (age : UInt32) :
    ∃ d, value? (max age 1).toFloat32 = some d ∧ 1 ≤ d :=
  exists_value_toFloat32_of_pos (UInt32.lt_of_lt_of_le (by decide) (word_le_max_right age 1))

/-- The levels between a branch and the tips; there are more of them closer to the trunk. -/
theorem exists_value_below {age depth depth' : UInt32} (h : depth ≤ age) (hle : depth' ≤ depth) :
    ∃ b b', value? ((max age 1).toFloat32 - depth.toFloat32) = some b ∧
      value? ((max age 1).toFloat32 - depth'.toFloat32) = some b' ∧ 0 ≤ b ∧ b ≤ b' := by
  have hvalue : ∀ {d : UInt32}, d ≤ age →
      ∃ b, value? ((max age 1).toFloat32 - d.toFloat32) = some b ∧ 0 ≤ b := by
    intro d hd
    -- each age is rounded to a scalar, but the order is kept and so the difference is not negative
    obtain ⟨l, hl, hl0, -⟩ := exists_value_toFloat32 (max age 1)
    obtain ⟨k, hk, hk0, -⟩ := exists_value_toFloat32 d
    have hkl := (value_le_iff hk hl).mp (toFloat32_le (UInt32.le_trans hd (word_le_max_left age 1)))
    have habs : |l - k| ≤ l := abs_le.mpr ⟨by linarith, by linarith⟩
    obtain ⟨b, hb, -⟩ := exists_value_within (rank_sub hl hk) hl (nearest_mono habs)
    exact ⟨b, hb, (value_nonneg_iff hb).mp (nonneg_of_rank (rank_sub hl hk) (by linarith))⟩
  obtain ⟨b, hb, hb0⟩ := hvalue h
  obtain ⟨b', hb', -⟩ := hvalue (UInt32.le_trans hle h)
  obtain ⟨l, hl, -, -⟩ := exists_value_toFloat32 (max age 1)
  obtain ⟨k, hk, hk0, -⟩ := exists_value_toFloat32 depth'
  have hmono := sub_le_sub_left (isFinite_of_value hl) ((value_nonneg_iff hk).mpr hk0)
    (toFloat32_le hle)
  exact ⟨b, b', hb, hb', hb0, (value_le_iff hb hb').mp hmono⟩

end Scalar

/-! ## The range -/

namespace FlowField

variable {f : FlowField} {age depth depth' : UInt32}

/-- Valid flow field with finite bounds whose range does not widen towards the trunk. -/
structure Narrowing (f : FlowField) : Prop where
  valid : f.isValid = true
  maxChange_finite : f.maxChange.isFinite = true
  changeStep_finite : f.changeStep.isFinite = true
  changeStep_nonneg : 0 ≤ f.changeStep

/-- Both bounds can be divided by the age of the plant, in their order. -/
theorem Narrowing.exists_bounds (h : f.Narrowing) (age : UInt32) :
    ∃ lo hi, value? (f.minChange / (max age 1).toFloat32) = some lo ∧
      value? (f.maxChange / (max age 1).toFloat32) = some hi ∧ 0 ≤ lo ∧ lo ≤ hi := by
  have hvalid := h.valid
  simp only [isValid, Bool.and_eq_true, decide_eq_true_eq] at hvalid
  obtain ⟨⟨-, hmin⟩, hordered⟩ := hvalid
  obtain ⟨d, hd, hd1⟩ := exists_value_levels age
  obtain ⟨q, hq⟩ := exists_value h.maxChange_finite
  obtain ⟨p, hp, hp0, hpq⟩ := exists_value_of_le hmin hq hordered
  obtain ⟨lo, hlo, hlo0⟩ := exists_value_div hp hp0 hd hd1
  obtain ⟨hi, hhi, -⟩ := exists_value_div hq (hp0.trans hpq) hd hd1
  refine ⟨lo, hi, hlo, hhi, hlo0, (value_le_iff hlo hhi).mp ?_⟩
  have hd0 : 0 < d := by linarith
  exact le_of_rank (rank_div hp hd hd0.ne') (rank_div hq hd hd0.ne')
    (div_le_div_of_nonneg_right hpq hd0.le)

/-- The degrees taken off the range; there are more of them closer to the trunk. -/
theorem Narrowing.taken_mono (h : f.Narrowing) (hdepth : depth ≤ age) (hle : depth' ≤ depth) :
    0 ≤ f.changeStep * ((max age 1).toFloat32 - depth.toFloat32) ∧
      f.changeStep * ((max age 1).toFloat32 - depth.toFloat32) ≤
        f.changeStep * ((max age 1).toFloat32 - depth'.toFloat32) := by
  obtain ⟨p, hp⟩ := exists_value h.changeStep_finite
  have hp0 := (value_nonneg_iff hp).mp h.changeStep_nonneg
  obtain ⟨b, b', hb, hb', hb0, hbb⟩ := exists_value_below hdepth hle
  refine ⟨nonneg_of_rank (rank_mul hp hb) (Rat.mul_nonneg hp0 hb0), ?_⟩
  exact le_of_rank (rank_mul hp hb) (rank_mul hp hb') (mul_le_mul_of_nonneg_left hbb hp0)

/-- The line that falls towards the trunk: not above the upper bound, and lower at lesser depth. -/
theorem Narrowing.line_mono (h : f.Narrowing) (hdepth : depth ≤ age) (hle : depth' ≤ depth) :
    f.maxChange / (max age 1).toFloat32 -
        f.changeStep * ((max age 1).toFloat32 - depth'.toFloat32) ≤
      f.maxChange / (max age 1).toFloat32 -
        f.changeStep * ((max age 1).toFloat32 - depth.toFloat32) ∧
    f.maxChange / (max age 1).toFloat32 -
        f.changeStep * ((max age 1).toFloat32 - depth.toFloat32) ≤
      f.maxChange / (max age 1).toFloat32 := by
  obtain ⟨-, hi, -, hhi, -, -⟩ := h.exists_bounds age
  obtain ⟨htaken, hmono⟩ := h.taken_mono hdepth hle
  have hfinite := isFinite_of_value hhi
  exact ⟨Scalar.sub_le_sub_left hfinite htaken hmono, Scalar.sub_le_self hfinite htaken⟩

/-- The range is between the bounds divided by the age. -/
theorem Narrowing.angleRange_bounds (h : f.Narrowing) (hdepth : depth ≤ age) :
    f.minChange / (max age 1).toFloat32 ≤ f.angleRange age depth ∧
      f.angleRange age depth ≤ f.maxChange / (max age 1).toFloat32 := by
  obtain ⟨lo, hi, hlo, hhi, -, hle⟩ := h.exists_bounds age
  refine ⟨le_maxNum_left (rank_lt_top hlo).2.le, ?_⟩
  have hline := (h.line_mono hdepth (UInt32.le_refl depth)).2
  exact maxNum_le ((value_le_iff hlo hhi).mpr hle) fun _ => hline

/-- The range does not widen towards the trunk. -/
theorem Narrowing.angleRange_mono (h : f.Narrowing) (hdepth : depth ≤ age) (hle : depth' ≤ depth) :
    f.angleRange age depth' ≤ f.angleRange age depth := by
  obtain ⟨lo, -, hlo, -, -, -⟩ := h.exists_bounds age
  obtain ⟨hline, hupper⟩ := h.line_mono hdepth hle
  refine maxNum_le (le_maxNum_left (rank_lt_top hlo).2.le) fun _ => ?_
  exact le_trans hline (le_maxNum_right ((le_iff.mp hupper).1.trans (le_iff.mp hupper).2))

/-- No branch is turned further than the upper bound divided by the age. -/
theorem Narrowing.abs_deflection_le (h : f.Narrowing) (hdepth : depth ≤ age) {noise : Noise}
    {place : Vec} {time n : Scalar}
    (hnoise : noise (place.x / f.xScale) (place.y / f.yScale) (time / f.zScale) = .ok n)
    (hn0 : 0 ≤ n) (hn1 : n ≤ 1)
    (hfinite : (f.angleRange age depth - -f.angleRange age depth).isFinite = true) :
    ∃ turn, f.deflection place time age depth noise = .ok turn ∧
      turn.abs ≤ toRadians (f.maxChange / (max age 1).toFloat32) := by
  obtain ⟨lo, hi, hlo, hhi, hlo0, -⟩ := h.exists_bounds age
  obtain ⟨hlower, hupper⟩ := h.angleRange_bounds hdepth
  have hrange0 := le_trans ((value_nonneg_iff hlo).mpr hlo0) hlower
  obtain ⟨r, hr, hr0, hrhi⟩ := exists_value_of_le hrange0 hhi hupper
  obtain ⟨q, hq, hqr⟩ := exists_value_remap hr hr0 hfinite hn0 hn1
  refine ⟨_, ?_, abs_toRadians_le hq hhi (hqr.trans hrhi)⟩
  simp only [deflection, hnoise]
  rfl

/-- A valid flow field bounds the sway, unless its step widens the range towards the trunk. -/
theorem sway_bounded (h : f.Narrowing) (hdepth : depth ≤ age) :
    f.minChange / (max age 1).toFloat32 ≤ f.angleRange age depth ∧
      f.angleRange age depth ≤ f.maxChange / (max age 1).toFloat32 ∧
      (∀ depth' ≤ depth, f.angleRange age depth' ≤ f.angleRange age depth) ∧
      ∀ (noise : Noise) (place : Vec) (time n : Scalar),
        noise (place.x / f.xScale) (place.y / f.yScale) (time / f.zScale) = .ok n →
        0 ≤ n → n ≤ 1 →
        (f.angleRange age depth - -f.angleRange age depth).isFinite = true →
        ∃ turn, f.deflection place time age depth noise = .ok turn ∧
          turn.abs ≤ toRadians (f.maxChange / (max age 1).toFloat32) := by
  obtain ⟨hlower, hupper⟩ := h.angleRange_bounds hdepth
  exact ⟨hlower, hupper, fun _ hle => h.angleRange_mono hdepth hle,
    fun _ _ _ _ hnoise hn0 hn1 hfinite => h.abs_deflection_le hdepth hnoise hn0 hn1 hfinite⟩

theorem narrowing_default : Narrowing {} where
  valid := by decide
  maxChange_finite := by decide
  changeStep_finite := by decide
  changeStep_nonneg := by decide

/-- The trunk sways less than the tips, and they not further than the bound. -/
theorem sway_bounded_default : Narrowing {} ∧ (7 : UInt32) ≤ 7 ∧
    angleRange {} 7 0 ≤ angleRange {} 7 7 ∧
    ∃ turn, deflection {} ⟨10, 20⟩ 0 7 7 (.constant (3 / 4)) = .ok turn ∧
      turn.abs ≤ toRadians (100 / (max 7 1 : UInt32).toFloat32) := by
  have hdepth : (7 : UInt32) ≤ 7 := by decide
  obtain ⟨-, -, hmono, hturn⟩ := sway_bounded narrowing_default hdepth
  exact ⟨narrowing_default, hdepth, hmono 0 (by decide),
    hturn (.constant (3 / 4)) ⟨10, 20⟩ 0 (3 / 4) rfl (by decide) (by decide)
      (by decide)⟩

/-- Field that adds degrees towards the trunk, although its bounds are equal. -/
def rising : FlowField := { changeStep := -5, minChange := 10, maxChange := 10 }

/-- A field may be valid and still leave its upper bound, the more so the closer to the trunk. -/
theorem angleRange_rising : rising.isValid = true ∧
    (rising.changeStep.isFinite && rising.minChange.isFinite && rising.maxChange.isFinite &&
      rising.xScale.isFinite && rising.yScale.isFinite && rising.zScale.isFinite) = true ∧
    rising.maxChange / (max 2 1 : UInt32).toFloat32 < rising.angleRange 2 1 ∧
    rising.angleRange 2 1 < rising.angleRange 2 0 ∧
    ∃ turn, rising.deflection ⟨0, 0⟩ 0 2 1 (.constant 1) = .ok turn ∧
      toRadians (rising.maxChange / (max 2 1 : UInt32).toFloat32) < turn.abs := by
  refine ⟨by decide, by decide, by decide, by decide, _, rfl, ?_⟩
  decide

end FlowField

end PlantGrowth
