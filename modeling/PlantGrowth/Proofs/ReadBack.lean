import PlantGrowth.Proofs.Binary64
import PlantGrowth.Proofs.ShortestDecimal

/-!
# Scalars are read back from their shortest decimals

A decimal is read as a word and a power of ten, whose product or quotient is rounded in double
precision before it is rounded to a scalar (`exists_scaleBy`). The shortest decimal of a scalar
gives the scalar back all the same (`readsBack`): the two roundings on the way are small against the
distance of the decimal from the ends of the rounding cell (`IsShortest.nearest_of_close`), since it
is next to the number on a grid finer than the unit or else `separated` from the ends, and at an end
itself power of ten and quotient are exact (`IsShortest.exponent_of_end`).

Powers of two, whose cells are not even, and the two scalars beside the one decimal that is not
separated are evaluated (`powers_evaluate`, `neighbours_evaluate`).
-/

set_option autoImplicit false

namespace PlantGrowth.Decimal

open Rounding Binary64
open Scalar (rank)
open Json.Reader (power wordFloat scaleBy withSign)

/-! ## Rounding in a cell -/

theorem roundEven_of_near {q : ℚ} {m : ℤ} (h : |q - m| ≤ 1 / 2)
    (heven : m % 2 = 0 ∨ |q - m| < 1 / 2) : roundEven q = m := by
  rcases h.lt_or_eq with hlt | heq
  · have hround := abs_roundEven_sub_le q
    have hclose : |((roundEven q - m : ℤ) : ℚ)| < 1 := by
      push_cast
      calc |(roundEven q : ℚ) - m| ≤ |roundEven q - q| + |q - m| := abs_sub_le _ _ _
        _ < 1 := by linarith
    have : |roundEven q - m| < 1 := by exact_mod_cast hclose
    rw [Int.abs_lt_one_iff] at this
    omega
  · -- halfway between two integers lies the even one
    have hm := heven.resolve_right (by rw [heq]; exact lt_irrefl _)
    rcases abs_cases (q - m) with ⟨habs, -⟩ | ⟨habs, -⟩
    · have hfloor : ⌊q⌋ = m := by
        rw [Int.floor_eq_iff]
        constructor <;> linarith
      have hfract : Int.fract q = 1 / 2 := by
        rw [Int.fract, hfloor]
        linarith
      rw [roundEven, hfract, if_neg (lt_irrefl _), if_neg (lt_irrefl _), hfloor, hm, add_zero]
    · have hfloor : ⌊q⌋ = m - 1 := by
        rw [Int.floor_eq_iff]
        push_cast
        constructor <;> linarith
      have hfract : Int.fract q = 1 / 2 := by
        rw [Int.fract, hfloor]
        push_cast
        linarith
      rw [roundEven, hfract, if_neg (lt_irrefl _), if_neg (lt_irrefl _), hfloor]
      omega

/-- What lies within half a unit of a scalar is rounded to it, unless it is a power of two. -/
theorem nearest_of_near {m : ℕ} {e : ℤ} {r : ℚ} (hM : IsMantissa m e) (hm : 0 < m) (hhigh : e ≤ 104)
    (hplain : ¬ (m = 2 ^ 23 ∧ -149 < e)) (h : |r - m * 2 ^ e| ≤ 2 ^ (e - 1))
    (heven : m % 2 = 0 ∨ |r - m * 2 ^ e| < 2 ^ (e - 1)) : nearest r = rankAt m e := by
  have hunit := two_zpow_pos e
  have hhalf : (2 : ℚ) ^ (e - 1) = 1 / 2 * 2 ^ e := by
    rw [two_zpow_double e]
    ring
  rw [hhalf] at h heven
  obtain ⟨hlow', hhigh'⟩ := abs_le.mp h
  have hlt := hM.lt
  have hleast := hM.least
  have hlt' : (m : ℚ) ≤ 2 ^ 24 - 1 := by exact_mod_cast (by omega : (m : ℤ) ≤ 2 ^ 24 - 1)
  have hone : (1 : ℚ) ≤ m := by exact_mod_cast hm
  have hpos : 0 ≤ r := by
    have := mul_le_mul_of_nonneg_right hone hunit.le
    linarith
  -- the rational has the exponent of the scalar
  have hexponent : IsExponentOf r e := by
    refine ⟨?_, ?_, hleast⟩
    · have := mul_le_mul_of_nonneg_right hlt' hunit.le
      linarith
    · rcases eq_or_ne e (-149) with he | he
      · exact Or.inl he
      · refine Or.inr ?_
        have hge := hM.ge.resolve_left he
        have hge' : (2 ^ 23 + 1 : ℚ) ≤ m := by
          have : (2 ^ 23 + 1 : ℤ) ≤ m := by omega
          exact_mod_cast this
        have := mul_le_mul_of_nonneg_right hge' hunit.le
        linarith
  have hscale : r / 2 ^ e - m = (r - m * 2 ^ e) / 2 ^ e := by
    rw [sub_div, mul_div_cancel_right₀ _ hunit.ne']
  have hround : roundEven (r / 2 ^ e) = m := by
    apply roundEven_of_near
    · rw [Int.cast_natCast, hscale, abs_div, abs_of_pos hunit, div_le_iff₀ hunit]
      exact h
    · refine heven.imp (fun h => by omega) fun hstrict => ?_
      rw [Int.cast_natCast, hscale, abs_div, abs_of_pos hunit, div_lt_iff₀ hunit]
      exact hstrict
  rw [nearest, if_pos hpos, rankOf, hexponent.eq_exponentOf hpos, hround, min_eq_left]
  simp only [rankAt, top]
  omega

/-! ## Decimals near a scalar -/

/-- The two scalars beside the decimal that two roundings might take across. -/
def Beside (m : ℕ) (e : ℤ) : Prop := e = -107 ∧ (m = 11420669 ∨ m = 11420670)

theorem not_near {m h : ℕ} {e : ℤ} (hM : IsMantissa m e) (hbeside : ¬ Beside m e)
    (hh : h = 2 * m + 1 ∨ h + 1 = 2 * m) : ¬ Near e h := by
  have hge := hM.ge
  unfold Beside at hbeside
  rintro (⟨rfl, rfl⟩ | ⟨rfl, rfl⟩) <;> omega

section IsShortest

variable {m : ℕ} {e : ℤ} {d : Numeral}

/-- The decimal as a multiple of a grid that is no finer than the unit. -/
theorem exists_multiple (hcoarse : gridOver e ≤ d.exponent) :
    d.value =
      (d.coefficient * 10 ^ (d.exponent - gridOver e).toNat : ℕ) * (10 : ℚ) ^ gridOver e := by
  have hpow : (10 : ℚ) ^ d.exponent =
      10 ^ (d.exponent - gridOver e).toNat * 10 ^ gridOver e := by
    rw [← zpow_natCast, ← zpow_add₀ (by norm_num)]
    congr 1
    omega
  rw [Numeral.value, hpow]
  push_cast
  ring

/-- On a coarse grid the decimal is an end of the cell or keeps away from both. -/
theorem IsShortest.far_or_end (h : IsShortest m e d) (hM : IsMantissa m e) (hm : 0 < m)
    (hhigh : e ≤ 104) (hbeside : ¬ Beside m e) (hcoarse : gridOver e ≤ d.exponent) :
    (m % 2 = 0 ∧ ∃ n : ℕ, n < 2 ^ 25 ∧ d.value = n * 2 ^ (e - 1)) ∨
      |d.value - m * 2 ^ e| < (1 - (2 ^ 20 + 1) / 2 ^ 47) * 2 ^ (e - 1) := by
  have hmultiple := exists_multiple hcoarse
  have hpos : 0 < d.coefficient * 10 ^ (d.exponent - gridOver e).toNat :=
    Nat.mul_pos (h.coefficient_pos hm) (by positivity)
  have hunit := two_zpow_pos (e - 1)
  have hdouble := two_zpow_double e
  have hscalar : (m : ℚ) * 2 ^ e = 2 * m * 2 ^ (e - 1) := by
    rw [hdouble]
    ring
  have hle := h.value_le hM
  have habs := abs_le.mp h.distance_le
  have hupper := separated hM.least hhigh hpos (h := 2 * m + 1) (by rw [← hmultiple]; linarith)
  have hlower := separated hM.least hhigh hpos (h := 2 * m - 1) (by rw [← hmultiple]; linarith)
  rw [← hmultiple] at hupper hlower
  have hlt := hM.lt
  have hpred : ((2 * m - 1 : ℕ) : ℚ) = 2 * m - 1 := by
    rw [Nat.cast_sub (by omega)]
    push_cast
    rfl
  -- an end belongs to the cell of an even mantissa only
  have heven : |d.value - m * 2 ^ e| = 2 ^ (e - 1) → m % 2 = 0 := by
    intro heq
    by_contra hodd
    have hinside := h.inside
    rw [if_neg hodd, heq] at hinside
    exact lt_irrefl _ hinside
  rcases hupper with hend | hupper | hnear
  · refine Or.inl ⟨heven ?_, 2 * m + 1, by omega, hend⟩
    have : d.value - m * 2 ^ e = 2 ^ (e - 1) := by
      rw [hend, hdouble]
      push_cast
      ring
    rw [this, abs_of_pos hunit]
  · rcases hlower with hend | hlower | hnear
    · refine Or.inl ⟨heven ?_, 2 * m - 1, by omega, hend⟩
      have : d.value - m * 2 ^ e = -2 ^ (e - 1) := by
        rw [hend, hdouble, hpred]
        ring
      rw [this, abs_neg, abs_of_pos hunit]
    · refine Or.inr ?_
      push_cast at hupper
      rw [hpred] at hlower
      rw [abs_of_nonpos (by linarith)] at hupper
      rw [abs_of_nonneg (by linarith)] at hlower
      rw [abs_lt]
      constructor <;> linarith
    · exact absurd hnear (not_near hM hbeside (Or.inr (by omega)))
  · exact absurd hnear (not_near hM hbeside (Or.inl rfl))

/-- What is close to the shortest decimal, and the decimal itself where that is an end of the cell,
is rounded to the scalar. -/
theorem IsShortest.nearest_of_close (h : IsShortest m e d) (hM : IsMantissa m e) (hm : 0 < m)
    (hhigh : e ≤ 104) (hplain : ¬ (m = 2 ^ 23 ∧ -149 < e)) (hbeside : ¬ Beside m e) {r : ℚ}
    (hr : |r - d.value| ≤ (2 ^ 40 + 1) / 2 ^ 67 * 2 ^ (e - 1))
    (hend : ∀ n : ℕ, n < 2 ^ 25 → d.value = n * 2 ^ (e - 1) → r = d.value) :
    nearest r = rankAt m e := by
  have hunit := two_zpow_pos (e - 1)
  have hsplit : |r - m * 2 ^ e| ≤ |r - d.value| + |d.value - m * 2 ^ e| := abs_sub_le _ _ _
  rcases le_or_gt (gridOver e) d.exponent with hcoarse | hfine
  · rcases h.far_or_end hM hm hhigh hbeside hcoarse with ⟨heven, n, hn, hvalue⟩ | hfar
    · rw [hend n hn hvalue]
      exact nearest_of_near hM hm hhigh hplain h.distance_le (Or.inl heven)
    · have hlt : |r - m * 2 ^ e| < 2 ^ (e - 1) := by
        linarith
      exact nearest_of_near hM hm hhigh hplain hlt.le (Or.inr hlt)
  · -- on a grid finer than the unit the decimal is within less than half a unit
    have hgrid : d.exponent = gridOver e - 1 := by
      have := h.grid
      omega
    have hnear := h.near
    have hfiner := finer_grid hM.least hhigh
    have hdouble := two_zpow_double e
    rw [hgrid] at hnear
    have hlt : |r - m * 2 ^ e| < 2 ^ (e - 1) := by
      linarith
    exact nearest_of_near hM hm hhigh hplain hlt.le (Or.inr hlt)

/-- Where two numbers differ by powers of ten and two, the fives are in the other one. -/
theorem five_pow_dvd {x y n a b : ℕ} (h : x * 10 ^ n * 2 ^ a = y * 2 ^ b) : 5 ^ n ∣ y := by
  have hten : (5 : ℕ) ^ n ∣ 10 ^ n := pow_dvd_pow_of_dvd (by norm_num) n
  have hdvd : 5 ^ n ∣ y * 2 ^ b := h ▸ (hten.mul_left x).mul_right (2 ^ a)
  exact Nat.Coprime.dvd_of_dvd_mul_right (Nat.Coprime.pow n b (by norm_num)) hdvd

theorem lt_of_five_pow_dvd {y n : ℕ} (h : 5 ^ n ∣ y) (hpos : 0 < y) (hlt : y < 2 ^ 28) :
    n ≤ 22 := by
  have hle : 5 ^ n < 5 ^ 23 := (Nat.le_of_dvd hpos h).trans_lt (hlt.trans (by norm_num))
  have := (Nat.pow_lt_pow_iff_right (by norm_num)).mp hle
  omega

/-- A decimal at an end of the cell has an exponent whose power of ten is exact. -/
theorem IsShortest.exponent_of_end (h : IsShortest m e d) (hM : IsMantissa m e) (hm : 0 < m)
    (hhigh : e ≤ 104) {n : ℕ} (hn : n < 2 ^ 25) (hvalue : d.value = n * 2 ^ (e - 1)) :
    d.exponent.natAbs ≤ 22 := by
  have hpos := h.value_pos hm
  have hcoefficient := h.coefficient_pos hm
  have hlt := h.coefficient_lt hM hhigh
  have hn0 : 0 < n := by
    rw [hvalue, mul_pos_iff_of_pos_right (two_zpow_pos _)] at hpos
    exact_mod_cast hpos
  have htwo := zpow_eq_div 2 (e - 1)
  rw [Numeral.value] at hvalue
  push_cast at htwo
  rw [htwo] at hvalue
  rcases le_total 0 d.exponent with hsign | hsign
  · obtain ⟨k, hk⟩ := Int.eq_ofNat_of_zero_le hsign
    rw [hk, zpow_natCast] at hvalue
    field_simp at hvalue
    have hnat : d.coefficient * 10 ^ k * 2 ^ (-(e - 1)).toNat = n * 2 ^ (e - 1).toNat := by
      exact_mod_cast hvalue
    have := lt_of_five_pow_dvd (five_pow_dvd hnat) hn0 (by omega)
    omega
  · obtain ⟨k, hk⟩ := Int.eq_ofNat_of_zero_le (show 0 ≤ -d.exponent by omega)
    rw [show d.exponent = -(k : ℤ) by omega, zpow_neg, zpow_natCast] at hvalue
    field_simp at hvalue
    have hnat : n * 10 ^ k * 2 ^ (e - 1).toNat = d.coefficient * 2 ^ (-(e - 1)).toNat := by
      have : (n : ℚ) * 10 ^ k * 2 ^ (e - 1).toNat = d.coefficient * 2 ^ (-(e - 1)).toNat := by
        rw [hvalue]
        ring
      exact_mod_cast this
    have := lt_of_five_pow_dvd (five_pow_dvd hnat) hcoefficient hlt
    omega

end IsShortest

/-! ## Reading in double precision -/

/-- Mantissa and exponent of a positive number. -/
def parts? (x : Float) : Option (ℕ × ℤ) :=
  match x.toModel.unpack with
  | .finite .positive m e _ => some (m, e)
  | _ => none

theorem holds_of_parts {x : Float} {m : ℕ} {e : ℤ} (h : parts? x = some (m, e))
    (hnormal : IsNormal m e) : Holds x (m * 2 ^ e) := by
  unfold parts? at h
  split at h
  · rename_i m' e' hm hx
    cases h
    exact ⟨m, e, hm, hx, hnormal, rfl⟩
  · cases h

/-- Mantissa and exponent belong to a normal number within half a unit of a power of ten, and are
those of the power up to the twenty-second. -/
structure IsPower (k m : ℕ) (e : ℤ) : Prop where
  normal : IsNormal m e
  least : -52 ≤ e
  near : (m * 2 ^ (e + 52).toNat - 10 ^ k * 2 ^ 52 : ℤ).natAbs * 2 ^ 53 ≤ 10 ^ k * 2 ^ 52
  exact : k ≤ 22 → m * 2 ^ (e + 52).toNat = 10 ^ k * 2 ^ 52

instance (m : ℕ) (e : ℤ) : Decidable (IsNormal m e) :=
  decidable_of_iff (2 ^ 52 ≤ m ∧ m < 2 ^ 53 ∧ -1074 ≤ e ∧ e ≤ 971)
    ⟨fun ⟨h₁, h₂, h₃, h₄⟩ => ⟨h₁, h₂, h₃, h₄⟩, fun ⟨h₁, h₂, h₃, h₄⟩ => ⟨h₁, h₂, h₃, h₄⟩⟩

instance (k m : ℕ) (e : ℤ) : Decidable (IsPower k m e) :=
  decidable_of_iff (IsNormal m e ∧ -52 ≤ e ∧
      (m * 2 ^ (e + 52).toNat - 10 ^ k * 2 ^ 52 : ℤ).natAbs * 2 ^ 53 ≤ 10 ^ k * 2 ^ 52 ∧
      (k ≤ 22 → m * 2 ^ (e + 52).toNat = 10 ^ k * 2 ^ 52))
    ⟨fun ⟨h₁, h₂, h₃, h₄⟩ => ⟨h₁, h₂, h₃, h₄⟩, fun ⟨h₁, h₂, h₃, h₄⟩ => ⟨h₁, h₂, h₃, h₄⟩⟩

theorem powers_evaluated : ∀ k : ℕ, k < 47 →
    (parts? (power k)).any (fun p => decide (IsPower k p.1 p.2)) = true := by
  decide +kernel

theorem exists_isPower {k : ℕ} (hk : k < 47) :
    ∃ m e, parts? (power k) = some (m, e) ∧ IsPower k m e := by
  have h := powers_evaluated k hk
  rw [Option.any_eq_true] at h
  obtain ⟨⟨m, e⟩, hparts, hpower⟩ := h
  exact ⟨m, e, hparts, of_decide_eq_true hpower⟩

theorem IsPower.value_near {k m : ℕ} {e : ℤ} (h : IsPower k m e) :
    |(m : ℚ) * 2 ^ e - 10 ^ k| ≤ 10 ^ k / 2 ^ 53 ∧ (k ≤ 22 → (m : ℚ) * 2 ^ e = 10 ^ k) := by
  have hleast := h.least
  have hscale : (m : ℚ) * 2 ^ (e + 52).toNat = m * 2 ^ e * 2 ^ 52 := by
    rw [mul_assoc, mul_comm ((2 : ℚ) ^ e), ← zpow_add_natCast, ← zpow_natCast]
    congr 2
    push_cast
    omega
  constructor
  · have hnear : (((m * 2 ^ (e + 52).toNat - 10 ^ k * 2 ^ 52 : ℤ).natAbs : ℤ) : ℚ) * 2 ^ 53 ≤
        10 ^ k * 2 ^ 52 := by
      exact_mod_cast h.near
    have hdiff : ((m * 2 ^ (e + 52).toNat - 10 ^ k * 2 ^ 52 : ℤ) : ℚ) =
        (m * 2 ^ e - 10 ^ k) * 2 ^ 52 := by
      rw [sub_mul, ← hscale]
      push_cast
      ring
    rw [Int.natCast_natAbs, Int.cast_abs, hdiff, abs_mul,
      abs_of_pos (by norm_num : (0 : ℚ) < 2 ^ 52)] at hnear
    linarith
  · intro hle
    have hexact : (m : ℚ) * 2 ^ (e + 52).toNat = 10 ^ k * 2 ^ 52 := by exact_mod_cast h.exact hle
    rw [hscale] at hexact
    exact mul_right_cancel₀ (by norm_num) hexact

theorem holds_power {k : ℕ} (hk : k < 47) :
    ∃ p, Holds (power k) p ∧ |p - 10 ^ k| ≤ 10 ^ k / 2 ^ 53 ∧ (k ≤ 22 → p = 10 ^ k) := by
  obtain ⟨m, e, hparts, hpower⟩ := exists_isPower hk
  exact ⟨m * 2 ^ e, holds_of_parts hparts hpower.normal, hpower.value_near⟩

/-- Two numbers that each differ by a part `1 / 2 ^ 53` at most differ by little more than twice
that part. -/
theorem close_of_close {a b r : ℚ} (ha : |a - b| ≤ b / 2 ^ 53) (hr : |r - a| ≤ a / 2 ^ 53) :
    |r - b| ≤ (2 ^ 40 + 1) / 2 ^ 92 * b := by
  have hsplit : |r - b| ≤ |r - a| + |a - b| := abs_sub_le _ _ _
  have hab := abs_le.mp ha
  linarith

/-- The same where the second number is near to a quotient by a number near to `b`. -/
theorem close_div {w b p r : ℚ} (hw : 0 ≤ w) (hb : 0 < b) (hp : |p - b| ≤ b / 2 ^ 53)
    (hr : |r - w / p| ≤ w / p / 2 ^ 53) : |r - w / b| ≤ (2 ^ 40 + 1) / 2 ^ 92 * (w / b) := by
  have hpb := abs_le.mp hp
  have hpos : 0 < p := by linarith
  have hwp : 0 ≤ w / p := by positivity
  have hwb : 0 ≤ w / b := by positivity
  -- the quotients differ by the same part as the divisors
  have hquotient : w / p - w / b = w / p * ((b - p) / b) := by
    field_simp
  have hpart : |(b - p) / b| ≤ 1 / 2 ^ 53 := by
    rw [abs_div, abs_of_pos hb, abs_sub_comm, div_le_iff₀ hb]
    linarith
  have hclose : |w / p - w / b| ≤ w / p / 2 ^ 53 := by
    rw [hquotient, abs_mul, abs_of_nonneg hwp]
    have := mul_le_mul_of_nonneg_left hpart hwp
    linarith
  have hsplit : |r - w / b| ≤ |r - w / p| + |w / p - w / b| := abs_sub_le _ _ _
  have hbounds := abs_le.mp hclose
  linarith

theorem inRange_of_bounds {q : ℚ} (hlow : 2 ^ (-250 : ℤ) ≤ q) (hhigh : q ≤ 2 ^ (250 : ℤ)) :
    InRange q :=
  ⟨(zpow_le_zpow_right₀ (by norm_num) (by norm_num)).trans hlow,
    hhigh.trans_lt (zpow_lt_zpow_right₀ (by norm_num) (by norm_num))⟩

/-- The number holds a rational up to two roundings, and exactly if it has 53 bits and the power
of ten in it is exact. -/
def Carries (y : Float) (k : ℕ) (q : ℚ) : Prop :=
  ∃ r, Holds y r ∧ |r - q| ≤ (2 ^ 40 + 1) / 2 ^ 92 * q ∧ (k ≤ 22 → Short q → r = q)

section Word

variable {w k : ℕ}

theorem holds_power_bounds {p : ℚ} (hk : k < 47) (h : |p - 10 ^ k| ≤ 10 ^ k / 2 ^ 53) :
    1 / 2 ≤ p ∧ p ≤ 2 * 10 ^ 46 := by
  have hten : (1 : ℚ) ≤ 10 ^ k := one_le_pow₀ (by norm_num)
  have hten' : (10 : ℚ) ^ k ≤ 10 ^ 46 := pow_le_pow_right₀ (by norm_num) (by omega)
  have hbounds := abs_le.mp h
  constructor <;> linarith

theorem carries_mul_power (hw : 0 < w) (hlt : w < 2 ^ 53) (hk : k < 47) :
    Carries (wordFloat w * power k) k (w * 10 ^ k) := by
  obtain ⟨p, hp, hnear, hexact⟩ := holds_power hk
  obtain ⟨hlow, hhigh⟩ := holds_power_bounds hk hnear
  have hw1 : (1 : ℚ) ≤ w := by exact_mod_cast hw
  have hw2 : (w : ℚ) ≤ 2 ^ 53 := by exact_mod_cast hlt.le
  have hproduct : (w : ℚ) * p ≤ 2 ^ 53 * (2 * 10 ^ 46) := by
    gcongr
  have hproduct' : 1 * (1 / 2) ≤ (w : ℚ) * p := by
    gcongr
  obtain ⟨r, hr, hclose, hshort⟩ := (holds_wordFloat hw hlt).mul hp
    (inRange_of_bounds (le_trans (by norm_num) hproduct') (hproduct.trans (by norm_num)))
  refine ⟨r, hr, close_of_close ?_ hclose, fun hle hten => ?_⟩
  · rw [← mul_sub, abs_mul, abs_of_pos (by linarith), mul_div_assoc]
    exact mul_le_mul_of_nonneg_left hnear (by linarith)
  · rw [← hexact hle] at hten ⊢
    exact hshort hten

theorem carries_div_power (hw : 0 < w) (hlt : w < 2 ^ 53) (hk : k < 47) :
    Carries (wordFloat w / power k) k (w / 10 ^ k) := by
  obtain ⟨p, hp, hnear, hexact⟩ := holds_power hk
  obtain ⟨hlow, hhigh⟩ := holds_power_bounds hk hnear
  have hpos := hp.pos
  have hw1 : (1 : ℚ) ≤ w := by exact_mod_cast hw
  have hw2 : (w : ℚ) ≤ 2 ^ 53 := by exact_mod_cast hlt.le
  have hquotient : (w : ℚ) / p ≤ 2 ^ 53 / (1 / 2) := by
    gcongr
  have hquotient' : 1 / (2 * 10 ^ 46) ≤ (w : ℚ) / p := by
    gcongr
  obtain ⟨r, hr, hclose, hshort⟩ := (holds_wordFloat hw hlt).div hp
    (inRange_of_bounds (le_trans (by norm_num) hquotient') (hquotient.trans (by norm_num)))
  refine ⟨r, hr, close_div (by linarith) (by positivity) hnear hclose, fun hle hten => ?_⟩
  rw [← hexact hle] at hten ⊢
  exact hshort hten

theorem Carries.isInf_eq {y : Float} {q : ℚ} (h : Carries y k q) : y.isInf = false := by
  obtain ⟨r, ⟨m, e, hm, hunpack, -⟩, -⟩ := h
  have hdef : y.isInf = y.toModel.unpack.isInf := rfl
  rw [hdef, hunpack]
  rfl

/-- A word and a power of ten are read as their product. -/
theorem exists_scaleBy {j : ℤ} (hw : 0 < w) (hlt : w < 2 ^ 53) (hj : j.natAbs < 47) :
    ∃ y, scaleBy (wordFloat w) j 4 = .ok y ∧ Carries y j.natAbs (w * 10 ^ j) := by
  have hsmall : j.natAbs ≤ 308 := by omega
  rcases le_or_gt 0 j with hsign | hsign
  · have hcarries := carries_mul_power hw hlt hj
    have hpow : (10 : ℚ) ^ j = 10 ^ j.natAbs := by
      rw [← zpow_natCast, Int.natCast_natAbs, abs_of_nonneg hsign]
    rw [← hpow] at hcarries
    refine ⟨_, ?_, hcarries⟩
    have hnat : j.toNat = j.natAbs := by omega
    simp only [scaleBy, if_pos hsmall, if_pos hsign, hnat, hcarries.isInf_eq]
    rfl
  · have hcarries := carries_div_power hw hlt hj
    have hpow : (w : ℚ) * 10 ^ j = w / 10 ^ j.natAbs := by
      rw [div_eq_mul_inv, ← zpow_natCast, ← zpow_neg, Int.natCast_natAbs, abs_of_neg hsign, neg_neg]
    rw [← hpow] at hcarries
    refine ⟨_, ?_, hcarries⟩
    simp only [scaleBy, if_pos hsmall, if_neg (not_le.mpr hsign)]

end Word

/-! ## Reading a decimal back -/

/-- Word and power of ten as which a written decimal is read. A whole number that is written out
has a zero behind the point. -/
def NumberStyle.read (style : NumberStyle) (d : Numeral) : ℕ × ℤ :=
  if style.least ≤ d.magnitude ∧ d.magnitude ≤ style.greatest ∧ 0 ≤ d.exponent then
    (10 * (d.coefficient * 10 ^ d.exponent.toNat), -1)
  else (d.coefficient, d.exponent)

theorem lt_pow_length (n : ℕ) : n < 10 ^ (digits n).length :=
  (Nat.length_toDigits_le_iff (by norm_num) Nat.length_toDigits_pos).mp le_rfl

theorem read_value (style : NumberStyle) (d : Numeral) :
    ((style.read d).1 : ℚ) * 10 ^ (style.read d).2 = d.value := by
  unfold NumberStyle.read Numeral.value
  split
  · rename_i h
    have hpow : (10 : ℚ) ^ d.exponent = 10 ^ d.exponent.toNat := by
      rw [← zpow_natCast, Int.toNat_of_nonneg h.2.2]
    rw [hpow]
    norm_num
    ring
  · rfl

/-- A whole number that is written out has at most thirteen digits. -/
theorem read_fst_lt {d : Numeral} (h : d.coefficient < 2 ^ 28) :
    (NumberStyle.single.read d).1 < 2 ^ 53 := by
  unfold NumberStyle.read
  split
  · rename_i hwhole
    obtain ⟨-, hgreatest, hsign⟩ := hwhole
    obtain ⟨k, hk⟩ := Int.eq_ofNat_of_zero_le hsign
    have hlength : k + (digits d.coefficient).length ≤ 13 := by
      unfold Numeral.magnitude NumberStyle.single at hgreatest
      dsimp only at hgreatest
      omega
    have hlt : d.coefficient * 10 ^ k < 10 ^ 13 := by
      calc d.coefficient * 10 ^ k < 10 ^ (digits d.coefficient).length * 10 ^ k :=
            Nat.mul_lt_mul_of_pos_right (lt_pow_length _) (by positivity)
        _ = 10 ^ (k + (digits d.coefficient).length) := by ring
        _ ≤ 10 ^ 13 := Nat.pow_le_pow_right (by norm_num) hlength
    rw [hk, Int.toNat_natCast]
    dsimp only
    omega
  · exact h.trans (by norm_num)

/-- A word and a power of ten small enough to be read, and to be scaled to what is rounded to the
number `m * 2 ^ e`. -/
structure ReadsBack (m : ℕ) (e : ℤ) (w : ℕ) (j : ℤ) : Prop where
  pos : 0 < w
  lt : w < 2 ^ 53
  small : j.natAbs < 47
  scaled : ∃ y q, scaleBy (wordFloat w) j 4 = .ok y ∧ Holds y q ∧ nearest q = rankAt m e

theorem IsShortest.readsBack {m : ℕ} {e : ℤ} {d : Numeral} (h : IsShortest m e d)
    (hM : IsMantissa m e) (hm : 0 < m) (hhigh : e ≤ 104) (hplain : ¬ (m = 2 ^ 23 ∧ -149 < e))
    (hbeside : ¬ Beside m e) :
    ReadsBack m e (NumberStyle.single.read d).1 (NumberStyle.single.read d).2 := by
  have hvalue := read_value .single d
  have hlt := read_fst_lt (h.coefficient_lt hM hhigh)
  have hexponent := h.exponent_bounds hM hm hhigh
  have hsecond : (NumberStyle.single.read d).2 = -1 ∨
      (NumberStyle.single.read d).2 = d.exponent := by
    unfold NumberStyle.read
    split
    · exact Or.inl rfl
    · exact Or.inr rfl
  generalize (NumberStyle.single.read d).1 = w at *
  generalize (NumberStyle.single.read d).2 = j at *
  have hw : 0 < w := by
    have hpos := h.value_pos hm
    rw [← hvalue, mul_pos_iff_of_pos_right (by positivity)] at hpos
    exact_mod_cast hpos
  have hsmall : j.natAbs < 47 := by omega
  obtain ⟨y, hy, r, hr, hclose, hexact⟩ := exists_scaleBy hw hlt hsmall
  rw [hvalue] at hclose hexact
  refine ⟨hw, hlt, hsmall, y, r, hy, hr, ?_⟩
  apply h.nearest_of_close hM hm hhigh hplain hbeside
  · have hle := h.value_le hM
    rw [two_zpow_double e] at hle
    linarith
  · intro n hn hend
    have hten := h.exponent_of_end hM hm hhigh hn hend
    exact hexact (by omega) ⟨n, e - 1, by omega, hend⟩

/-! ### Evaluation -/

/-- The evaluated text of a number is read back. -/
def evaluates (m : ℕ) (e : ℤ) : Bool :=
  let p := NumberStyle.single.read (shortest .binary32 .even m e)
  0 < p.1 && p.1 < 2 ^ 53 && p.2.natAbs < 47 &&
    match scaleBy (wordFloat p.1) p.2 4 with
    | .ok y => (parts? y).any (fun u => decide (IsNormal u.1 u.2)) && rank (.ofFloat y) = rankAt m e
    | .error _ => false

theorem readsBack_of_evaluates {m : ℕ} {e : ℤ} (h : evaluates m e = true) :
    ReadsBack m e (NumberStyle.single.read (shortest .binary32 .even m e)).1
      (NumberStyle.single.read (shortest .binary32 .even m e)).2 := by
  unfold evaluates at h
  dsimp only at h
  generalize (NumberStyle.single.read (shortest .binary32 .even m e)).1 = w at *
  generalize (NumberStyle.single.read (shortest .binary32 .even m e)).2 = j at *
  simp only [Bool.and_eq_true, decide_eq_true_eq] at h
  obtain ⟨⟨⟨hw, hlt⟩, hsmall⟩, hscaled⟩ := h
  split at hscaled
  · rename_i y hy
    simp only [Bool.and_eq_true, Option.any_eq_true, decide_eq_true_eq] at hscaled
    obtain ⟨⟨⟨m', e'⟩, hparts, hnormal⟩, hrank⟩ := hscaled
    have hholds := holds_of_parts hparts hnormal
    have hnearest := hholds.rank_ofFloat false
    rw [if_neg Bool.false_ne_true] at hnearest
    refine ⟨hw, hlt, hsmall, y, _, hy, hholds, ?_⟩
    rw [← hnearest, ← hrank]
    rfl
  · cases hscaled

/-- Powers of two above the least exponent. -/
theorem powers_evaluate : ∀ i : ℕ, i < 253 → evaluates (2 ^ 23) (i - 148) = true := by
  decide +kernel

/-- The two numbers beside the decimal that is near an end of both cells. -/
theorem neighbours_evaluate :
    evaluates 11420669 (-107) = true ∧ evaluates 11420670 (-107) = true := by
  decide +kernel

/-- Every number is read back from its shortest decimal. -/
theorem readsBack {m : ℕ} {e : ℤ} (hM : IsMantissa m e) (hm : 0 < m) (hhigh : e ≤ 104) :
    ReadsBack m e (NumberStyle.single.read (shortest .binary32 .even m e)).1
      (NumberStyle.single.read (shortest .binary32 .even m e)).2 := by
  by_cases hpower : m = 2 ^ 23 ∧ -149 < e
  · obtain ⟨rfl, hlow⟩ := hpower
    have h := powers_evaluate (e + 148).toNat (by omega)
    rw [show (((e + 148).toNat : ℤ) - 148) = e by omega] at h
    exact readsBack_of_evaluates h
  · by_cases hbeside : Beside m e
    · obtain ⟨rfl, rfl | rfl⟩ := hbeside
      · exact readsBack_of_evaluates neighbours_evaluate.1
      · exact readsBack_of_evaluates neighbours_evaluate.2
    · exact (shortest_spec hm hM.least hhigh hpower).readsBack hM hm hhigh hpower hbeside

end PlantGrowth.Decimal
