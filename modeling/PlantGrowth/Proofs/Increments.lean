import PlantGrowth.Proofs.Sampling

/-!
# Increments

Sums of scalars are rounded, so an increment that is small beside a number can be lost. It is not
lost if it is no smaller than the distance from the number to the next one (`lt_add_of_gap_le`), and
this distance does not shrink towards greater numbers (`lt_add_of_gap_le_of_lt`). Sums and products
of positive numbers grow with their parts.

Samples of an interval stay within it: the class `RandomSource.BoundedAbove` is the counterpart of
`RandomSource.Bounded`, and sources of words belong to it (`WordSource.stretch_le`). They do so
although all steps are rounded, since the number made of a word is less than one by at least the
share of the width that rounding can add to it.
-/

set_option autoImplicit false

namespace PlantGrowth

/-! ## The next number -/

namespace Rounding

variable {m e : ℤ}

/-- Behind a number the next one has the next rank, also where its mantissa overflows. -/
theorem rankOf_succ (h : IsMantissa m e) : rankOf ((m + 1) * 2 ^ e) = rankAt m e + 1 := by
  obtain ⟨hnonneg, hlt, hge, hleast⟩ := h
  rcases (Int.add_one_le_iff.mpr hlt).lt_or_eq with hsmall | hfull
  · have hnext : IsMantissa (m + 1) e := ⟨by omega, hsmall, by omega, hleast⟩
    have hrank := rankOf_mantissa hnext
    push_cast at hrank
    rw [hrank]
    simp only [rankAt]
    omega
  · have hnext : IsMantissa (2 ^ 23) (e + 1) :=
      ⟨by norm_num, by norm_num, Or.inr le_rfl, by omega⟩
    have hvalue : ((m : ℚ) + 1) * 2 ^ e = ((2 ^ 23 : ℤ) : ℚ) * 2 ^ (e + 1) := by
      have hm : (m : ℚ) + 1 = 2 ^ 24 := by exact_mod_cast hfull
      rw [hm, zpow_add_one₀ (by norm_num)]
      norm_num
      ring
    rw [hvalue, rankOf_mantissa hnext]
    simp only [rankAt]
    omega

/-- The number before one with a full mantissa has a smaller rank. -/
theorem nearest_pred_lt (h : IsMantissa m e) (hfull : 2 ^ 23 ≤ m) :
    nearest ((m - 1) * 2 ^ e) < rankAt m e := by
  obtain ⟨hnonneg, hlt, hge, hleast⟩ := h
  by_cases hleft : e = -149 ∨ 2 ^ 23 ≤ m - 1
  · have hprev : IsMantissa (m - 1) e := ⟨by omega, by omega, hleft, hleast⟩
    have hrank := nearest_of_mantissa hprev
    push_cast at hrank
    rw [hrank]
    simp only [rankAt]
    omega
  · -- below the least full mantissa the numbers are twice as dense
    have hprev : IsMantissa (2 ^ 24 - 2) (e - 1) :=
      ⟨by norm_num, by norm_num, Or.inr (by norm_num), by omega⟩
    have hvalue : ((m : ℚ) - 1) * 2 ^ e = ((2 ^ 24 - 2 : ℤ) : ℚ) * 2 ^ (e - 1) := by
      have hm : (m : ℚ) = 2 ^ 23 := by exact_mod_cast (show m = 2 ^ 23 by omega)
      rw [hm, zpow_sub_one₀ (by norm_num)]
      push_cast
      ring
    rw [hvalue, nearest_of_mantissa hprev]
    simp only [rankAt]
    omega

/-- All numbers are multiples of the least one. -/
theorem exists_intCast_of_value {x : Scalar} {q : ℚ} (hx : x.value? = some q) :
    ∃ k : ℤ, q = k * 2 ^ (-149 : ℤ) := by
  obtain ⟨m, e, hm, -, habs⟩ := (Scalar.denotes_unpack hx).exists_mantissa
  have hvalue : (m : ℚ) * 2 ^ e = ((m * 2 ^ (e + 149).toNat : ℤ) : ℚ) * 2 ^ (-149 : ℤ) := by
    have hexp : e = -149 + ((e + 149).toNat : ℕ) := by
      have := hm.least
      omega
    conv_lhs => rw [hexp, zpow_add_natCast]
    push_cast
    ring
  rcases abs_choice q with h | h
  · exact ⟨_, by rw [← h, habs, hvalue]⟩
  · refine ⟨-(m * 2 ^ (e + 149).toNat), ?_⟩
    rw [Int.cast_neg, neg_mul, ← hvalue, ← habs, h, neg_neg]

/-- A small multiple of the least number is a number. -/
theorem eq_of_nearest_eq {k m : ℤ} (hk : 0 ≤ k) (hm : m < 2 ^ 23)
    (h : nearest ((k : ℚ) * 2 ^ (-149 : ℤ)) = m) : m = k := by
  have htop : top = 255 * 2 ^ 23 := rfl
  have hsmall : ∀ {j : ℤ}, 0 ≤ j → j ≤ 2 ^ 23 → nearest ((j : ℚ) * 2 ^ (-149 : ℤ)) = j := by
    intro j hj hj'
    have hmantissa : IsMantissa j (-149) := ⟨hj, by omega, Or.inl rfl, le_rfl⟩
    rw [nearest_of_mantissa hmantissa]
    simp only [rankAt]
    omega
  rcases le_or_gt k (2 ^ 23) with hle | hgt
  · rw [← h, hsmall hk hle]
  · have hmono : nearest (((2 ^ 23 : ℤ) : ℚ) * 2 ^ (-149 : ℤ)) ≤
        nearest ((k : ℚ) * 2 ^ (-149 : ℤ)) := by
      refine nearest_mono (mul_le_mul_of_nonneg_right ?_ (two_zpow_pos _).le)
      exact_mod_cast hgt.le
    rw [hsmall (by norm_num) le_rfl, h] at hmono
    omega

/-- A finite number that is not negative, as a mantissa and an exponent. -/
theorem exists_mantissa_of_value {x : Scalar} {q : ℚ} (hx : x.value? = some q) (hq : 0 ≤ q) :
    ∃ m e : ℤ, IsMantissa m e ∧ q = m * 2 ^ e ∧ x.rank = rankAt m e := by
  obtain ⟨m, e, hm, hlt, habs⟩ := (Scalar.denotes_unpack hx).exists_mantissa
  rw [abs_of_nonneg hq] at habs
  refine ⟨m, e, hm, habs, ?_⟩
  rw [Scalar.rank_eq_nearest hx, habs, nearest_of_mantissa hm, min_eq_left hlt.le]

end Rounding

namespace Scalar

open Rounding

variable {x y z : Scalar} {p q : ℚ} {m e : ℤ}

/-- An increment is not lost if it reaches from the number to the next one. -/
theorem lt_add_of_gap_le (hx : x.value? = some ((m : ℚ) * 2 ^ e)) (hm : IsMantissa m e)
    (hy : y.value? = some q) (hgap : 2 ^ e ≤ q) : x < x + y := by
  have hxtop := (rank_lt_top hx).2
  have hrank : x.rank = rankAt m e := by
    rw [rank_eq_nearest hx, nearest_of_mantissa hm] at hxtop ⊢
    omega
  have hnext : min (rankAt m e + 1) top ≤ nearest (m * 2 ^ e + q) := by
    have hpos := two_zpow_pos e
    have hvalue : (0 : ℚ) ≤ (m + 1) * 2 ^ e := by
      have := hm.value_nonneg
      linarith
    have hmono : nearest ((m + 1) * 2 ^ e) ≤ nearest (m * 2 ^ e + q) :=
      nearest_mono (by linarith)
    rwa [nearest, if_pos hvalue, rankOf_succ hm] at hmono
  rw [lt_iff, rank_add hx hy]
  exact ⟨by omega, (nearest_bounds _).2⟩

/-- Nor is it lost in a smaller number, where the next one is not further away. -/
theorem lt_add_of_gap_le_of_lt (hz : z.value? = some ((m : ℚ) * 2 ^ e)) (hm : IsMantissa m e)
    (hy : y.value? = some q) (hgap : 2 ^ e ≤ q) (hx : 0 ≤ x) (hxz : x < z) : x < x + y := by
  have hztop := (rank_lt_top hz).2
  have hxrank := nonneg_iff.mp hx
  have hlt := (lt_iff.mp hxz).1
  obtain ⟨p, hp⟩ := exists_value (isFinite_iff.mpr ⟨by omega, by omega⟩ : x.isFinite = true)
  obtain ⟨n, d, hn, rfl, -⟩ := exists_mantissa_of_value hp ((value_nonneg_iff hp).mp hx)
  have hvalue := (value_lt_iff hp hz).mp hxz
  have hde : d ≤ e := hn.isExponentOf.le hm.isExponentOf hvalue.le
  have hpow : (2 : ℚ) ^ d ≤ 2 ^ e := zpow_le_zpow_right₀ (by norm_num) hde
  exact lt_add_of_gap_le hp hn hy (hpow.trans hgap)

/-- A sum with a greater increment is not smaller. -/
theorem add_le_add_left (hx : 0 ≤ x) (hy : 0 ≤ y) (h : y ≤ z) : x + y ≤ x + z := by
  have hz : 0 ≤ z := le_trans hy h
  have hle : (x + z).rank ≤ top := (nonneg_iff.mp (add_nonneg hx hz)).2
  have hle' : (x + y).rank ≤ top := (nonneg_iff.mp (add_nonneg hx hy)).2
  rw [le_iff, and_iff_left hle]
  rcases value_or_infinite hx with ⟨p, hp, hxp⟩ | hinf
  · rcases value_or_infinite hz with ⟨r, hr, hzr⟩ | hinf
    · obtain ⟨q, hyq, -, hqr⟩ := exists_value_of_le hy hzr h
      rw [rank_add hxp hyq, rank_add hxp hzr]
      exact nearest_mono (by linarith)
    · rwa [(rank_add_infinite hinf hx).2]
  · rwa [(rank_add_infinite hinf hz).1]

/-- An increment that is not negative does not make a number smaller. -/
theorem le_add_of_nonneg (hx : 0 ≤ x) (hy : 0 ≤ y) : x ≤ x + y := by
  have hle : (x + y).rank ≤ top := (nonneg_iff.mp (add_nonneg hx hy)).2
  rw [le_iff, and_iff_left hle]
  rcases value_or_infinite hx with ⟨p, hp, hxp⟩ | hinf
  · rcases value_or_infinite hy with ⟨q, hq, hyq⟩ | hinf
    · rw [rank_add hxp hyq, rank_eq_nearest hxp]
      exact nearest_mono (by linarith)
    · rw [(rank_add_infinite hinf hx).2]
      exact (nonneg_iff.mp hx).2
  · rw [(rank_add_infinite hinf hy).1, rank_infinity hinf]

theorem lt_of_lt_of_le (h : x < y) (h' : y ≤ z) : x < z := by
  rw [lt_iff] at *
  rw [le_iff] at h'
  exact ⟨h.1.trans_le h'.1, h'.2⟩

theorem lt_of_le_of_lt (h : x ≤ y) (h' : y < z) : x < z := by
  rw [lt_iff] at *
  rw [le_iff] at h
  exact ⟨h.1.trans_lt h'.1, h'.2⟩

/-- Only a positive increment makes a number greater. -/
theorem pos_of_lt_add (hx : 0 ≤ x) (h : x < x + y) : 0 < y := by
  obtain ⟨hlt, htop⟩ := lt_iff.mp h
  have hxrank := nonneg_iff.mp hx
  have hfinite : x.isFinite = true := isFinite_iff.mpr ⟨by omega, by omega⟩
  by_cases hy : y.isFinite = true
  · obtain ⟨p, hp⟩ := exists_value hfinite
    obtain ⟨q, hq⟩ := exists_value hy
    rw [value_pos_iff hq]
    by_contra hneg
    have hmono : nearest (p + q) ≤ nearest p := nearest_mono (by linarith)
    rw [rank_add hp hq, rank_eq_nearest hp] at hlt
    omega
  · rw [add_of_not_finite hfinite hy] at h
    exact lt_of_le_of_lt hx h

theorem maxNum_zero_of_nonneg (h : 0 ≤ x) : maxNum x 0 = x := by
  obtain ⟨hrank, htop⟩ := nonneg_iff.mp h
  have hnan : ¬ x.isNaN = true := by
    rw [isNaN_iff]
    omega
  have hlt : ¬ x < 0 := by
    rw [lt_iff]
    exact fun hneg => absurd hrank (not_le.mpr hneg.1)
  rw [maxNum, if_neg hnan, if_neg hlt]

end Scalar

/-! ## Samples and the upper end -/

/-- Source whose samples of an interval are not above its upper end. -/
class RandomSource.BoundedAbove (σ : Type) [RandomSource σ] : Prop where
  range_le {lo hi x : Scalar} {s t : σ} : lo ≤ hi →
    RandomSource.range lo hi s = .ok (x, t) → x ≤ hi

namespace WordSource

open Scalar Rounding

/-- The number made of a word falls short of one by a part of `2 ^ 23` at least. -/
theorem value_unit (word : UInt32) :
    ∃ u : ℚ, (unit word).value? = some u ∧ 0 ≤ u ∧ u ≤ 1 - 1 / 2 ^ 23 := by
  obtain ⟨hunit, hunit'⟩ := unit_bounds word
  obtain ⟨u, hu, hu0, -⟩ := exists_value_of_le hunit value_one hunit'
  refine ⟨u, hu, hu0, ?_⟩
  -- the bits are those of a number below two, and these fall short of two by as much
  have hbits := rank_ofBits_word word
  have hlast : value? (Float32.ofBits 0x3fffffff) = some (2 - 1 / 2 ^ 23) := by decide +kernel
  have hlast' : value? (Float32.ofBits 0x3f7ffffe) = some (1 - 1 / 2 ^ 23) := by decide +kernel
  have hrank : rank (Float32.ofBits 0x3fffffff) = 128 * 2 ^ 23 - 1 := by decide
  have hshift := shiftRight_lt word
  have htop' : top = 255 * 2 ^ 23 := rfl
  generalize hy : Float32.ofBits ((0x3f800000 : UInt32) ||| (word >>> 9)) = y at hbits
  obtain ⟨p, hp⟩ := exists_value (isFinite_iff.mpr ⟨by omega, by omega⟩ : y.isFinite = true)
  have hp2 : p ≤ 2 - 1 / 2 ^ 23 :=
    (value_le_iff hp hlast).mp (le_iff.mpr ⟨by omega, by omega⟩)
  have hsub : (unit word).rank = nearest (p - 1) := by
    rw [unit, hy]
    exact rank_sub hp value_one
  refine (value_le_iff hu hlast').mp (le_iff.mpr ⟨?_, by decide⟩)
  rw [hsub, rank_eq_nearest hlast']
  exact nearest_mono (by linarith)

/-- A part of a rounded width that falls short of it by `1 / 2 ^ 23` is not above the exact width,
though the rounded width may be. -/
theorem le_exact_width {lo hi width part : Scalar} {l r w u v : ℚ} (hl : lo.value? = some l)
    (hr : hi.value? = some r) (hw : width.value? = some w) (hv : part.value? = some v)
    (hlr : l < r) (hwidth : nearest w = nearest (r - l)) (hpart : nearest v = nearest (u * w))
    (hu1 : u ≤ 1 - 1 / 2 ^ 23) (hw0 : 0 ≤ w) : v ≤ r - l := by
  by_contra hlt
  have hvrank : nearest (r - l) ≤ nearest v := nearest_mono (not_le.mp hlt).le
  rw [hpart, ← hwidth] at hvrank
  obtain ⟨m, e, hm, hwm, hrank⟩ := exists_mantissa_of_value hw hw0
  rw [rank_eq_nearest hw] at hrank
  rcases lt_or_ge m (2 ^ 23) with hsmall | hlarge
  · -- a width below the least full mantissa is exact
    have hexact : w = r - l := by
      obtain ⟨a, ha⟩ := exists_intCast_of_value hr
      obtain ⟨b, hb⟩ := exists_intCast_of_value hl
      have he : e = -149 := hm.ge.resolve_right (by omega)
      have hsub : r - l = ((a - b : ℤ) : ℚ) * 2 ^ (-149 : ℤ) := by
        rw [ha, hb, Int.cast_sub]
        ring
      rw [hsub] at hwidth ⊢
      rw [hwm, he, eq_of_nearest_eq ?_ hsmall (by rw [← hwidth, hrank, he]; simp [rankAt])]
      have hpos : (0 : ℚ) ≤ ((a - b : ℤ) : ℚ) * 2 ^ (-149 : ℤ) := by
        rw [← hsub]
        linarith
      exact_mod_cast nonneg_of_mul_nonneg_left hpos (two_zpow_pos _)
    have hvle : v ≤ w := by
      refine value_le_of_nearest_le hv hw ?_
      rw [hpart]
      exact nearest_mono (mul_le_of_le_one_left hw0 (by linarith))
    linarith
  · have hpred : u * w ≤ (m - 1) * 2 ^ e := by
      have hfull : (2 : ℚ) ^ 23 ≤ m := by exact_mod_cast hlarge
      calc u * w ≤ (1 - 1 / 2 ^ 23) * w := mul_le_mul_of_nonneg_right hu1 hw0
        _ = (m - m / 2 ^ 23) * 2 ^ e := by rw [hwm]; ring
        _ ≤ (m - 1) * 2 ^ e := by
          refine mul_le_mul_of_nonneg_right ?_ (two_zpow_pos e).le
          linarith
    have := (nearest_mono hpred).trans_lt (nearest_pred_lt hm hlarge)
    omega

/-- A word stretched over an interval stays below the upper end, however the steps are rounded. -/
theorem stretch_le {lo hi : Scalar} (word : UInt32) (h : lo < hi) (hlo : lo.isFinite = true)
    (hhi : hi.isFinite = true) (hwidth : (hi - lo).isFinite = true) :
    unit word * (hi - lo) + lo ≤ hi := by
  obtain ⟨u, hu, hu0, hu1⟩ := value_unit word
  obtain ⟨l, hl⟩ := exists_value hlo
  obtain ⟨r, hr⟩ := exists_value hhi
  obtain ⟨w, hw⟩ := exists_value hwidth
  have hlr := (value_lt_iff hl hr).mp h
  have hwidthRank : nearest w = nearest (r - l) := by
    rw [← rank_eq_nearest hw, rank_sub hr hl]
  have hw0 : 0 ≤ w := width_nonneg hl hr hw h
  obtain ⟨v, hv, -, hpart⟩ := exists_value_share hu hu0 (by linarith) hw hw0
  have hvw := le_exact_width hl hr hw hv hlr hwidthRank hpart hu1 hw0
  exact le_of_rank (rank_add hv hl) (rank_eq_nearest hr) (by linarith)

instance {σ : Type} [WordSource σ] : RandomSource.BoundedAbove σ where
  range_le := by
    intro lo hi x s t hle h
    change range lo hi s = .ok (x, t) at h
    unfold range at h
    split at h
    · rename_i hlt
      split at h
      · rename_i hfinite
        rw [Bool.and_eq_true, Bool.and_eq_true] at hfinite
        obtain ⟨⟨hlo, hhi⟩, hwidth⟩ := hfinite
        cases h
        exact stretch_le _ hlt hlo hhi hwidth
      · cases h
    · cases h
      exact hle

end WordSource

end PlantGrowth
