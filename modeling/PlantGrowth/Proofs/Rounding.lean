import Mathlib.Data.Int.Log
import Mathlib.Data.Rat.Floor
import Mathlib.Tactic.Linarith
import Mathlib.Tactic.NormNum
import Mathlib.Tactic.Positivity

/-!
# Rounding to binary32

The binary32 numbers that are not negative stand in a row: zero, the least positive number, and so
on up to infinity. The place of a number in this row is its `rank`, and a rational number is rounded
to the rank that is nearest to it, the even one of two.

A number `m * 2 ^ e` with a mantissa of 24 bits (`IsMantissa`) has rank `rankAt m e`. Rounding
leaves it where it is (`rankOf_mantissa`) and keeps the order of the rationals (`rankOf_mono`);
`nearest` extends both to negative numbers and to what is too large (`nearest_mono`,
`nearest_of_mantissa`).
-/

set_option autoImplicit false

namespace PlantGrowth.Rounding

/-! ## Integers -/

/-- The integer nearest to a rational number, and of two the even one. -/
def roundEven (q : ℚ) : ℤ :=
  if Int.fract q < 1 / 2 then ⌊q⌋
  else if 1 / 2 < Int.fract q then ⌊q⌋ + 1
  else ⌊q⌋ + ⌊q⌋ % 2

theorem roundEven_cases (q : ℚ) : roundEven q = ⌊q⌋ ∨ roundEven q = ⌊q⌋ + 1 := by
  unfold roundEven
  split
  · exact Or.inl rfl
  · split
    · exact Or.inr rfl
    · rcases Int.emod_two_eq ⌊q⌋ with h | h
      · rw [h, add_zero]
        exact Or.inl rfl
      · rw [h]
        exact Or.inr rfl

theorem roundEven_mono {p q : ℚ} (h : p ≤ q) : roundEven p ≤ roundEven q := by
  have hfloor : ⌊p⌋ ≤ ⌊q⌋ := Int.floor_le_floor h
  rcases hfloor.lt_or_eq with hlt | heq
  · rcases roundEven_cases p with hp | hp <;> rcases roundEven_cases q with hq | hq <;> omega
  · -- between the same two integers the fractions decide
    have hfract : Int.fract p ≤ Int.fract q := by
      rw [Int.fract, Int.fract, heq]
      linarith
    have hmod := Int.emod_two_eq ⌊q⌋
    unfold roundEven
    rw [heq]
    split_ifs <;> first | omega | linarith

theorem roundEven_intCast (k : ℤ) : roundEven k = k := by
  simp [roundEven]

theorem le_roundEven {k : ℤ} {q : ℚ} (h : k ≤ q) : k ≤ roundEven q := by
  rw [← roundEven_intCast k]
  exact roundEven_mono h

theorem roundEven_le {k : ℤ} {q : ℚ} (h : q ≤ k) : roundEven q ≤ k := by
  rw [← roundEven_intCast k]
  exact roundEven_mono h

theorem roundEven_le_of_lt_half {k : ℤ} {q : ℚ} (h : q < k + 1 / 2) : roundEven q ≤ k := by
  have hfloor : ⌊q⌋ ≤ k := by
    by_contra hlt
    have : ((k + 1 : ℤ) : ℚ) ≤ q := Int.le_floor.mp (not_le.mp hlt)
    push_cast at this
    linarith
  rcases hfloor.lt_or_eq with hlt | heq
  · rcases roundEven_cases q with h | h <;> omega
  · have hfract : Int.fract q < 1 / 2 := by
      rw [Int.fract, heq]
      linarith
    rw [roundEven, if_pos hfract]
    exact hfloor

/-! ## Exponents -/

/-- Exponent of the last bit of the mantissa of a number. -/
def exponentOf (q : ℚ) : ℤ := if 0 < q then max (Int.log 2 q - 23) (-149) else -149

theorem two_zpow_pos (e : ℤ) : (0 : ℚ) < 2 ^ e := zpow_pos (by norm_num) e

theorem zpow_add_natCast (e : ℤ) (n : ℕ) : (2 : ℚ) ^ (e + n) = 2 ^ n * 2 ^ e := by
  rw [zpow_add₀ (by norm_num), zpow_natCast, mul_comm]

theorem two_zpow_double (e : ℤ) : (2 : ℚ) ^ e = 2 * 2 ^ (e - 1) := by
  rw [zpow_sub_one₀ (by norm_num)]
  ring

/-- The mantissa has at most 24 bits, and fewer only where the exponent is the least. -/
structure IsExponentOf (q : ℚ) (e : ℤ) : Prop where
  lt : q < 2 ^ 24 * 2 ^ e
  ge : e = -149 ∨ 2 ^ 23 * 2 ^ e ≤ q
  least : -149 ≤ e

theorem isExponentOf_exponentOf {q : ℚ} (hq : 0 ≤ q) : IsExponentOf q (exponentOf q) := by
  unfold exponentOf
  split
  · rename_i hpos
    have hlow : (2 : ℚ) ^ Int.log 2 q ≤ q := Int.zpow_log_le_self (by norm_num) hpos
    have hhigh : q < (2 : ℚ) ^ (Int.log 2 q + 1) := Int.lt_zpow_succ_log_self (by norm_num) q
    constructor
    · refine hhigh.trans_le ?_
      rw [← zpow_add_natCast]
      apply zpow_le_zpow_right₀ (by norm_num)
      push_cast
      omega
    · rcases le_total (Int.log 2 q - 23) (-149) with h | h
      · exact Or.inl (max_eq_right h)
      · refine Or.inr ?_
        rw [max_eq_left h, ← zpow_add_natCast]
        simpa using hlow
    · exact le_max_right _ _
  · rename_i hpos
    have hzero : q = 0 := le_antisymm (not_lt.mp hpos) hq
    exact ⟨by rw [hzero]; positivity, Or.inl rfl, le_rfl⟩

/-- A greater exponent means a greater number. -/
theorem IsExponentOf.le_of_lt {p q : ℚ} {d e : ℤ} (hp : IsExponentOf p d) (hq : IsExponentOf q e)
    (h : d < e) :
    p < 2 ^ 24 * 2 ^ d ∧ (2 : ℚ) ^ 24 * 2 ^ d ≤ 2 ^ 23 * 2 ^ e ∧ 2 ^ 23 * 2 ^ e ≤ q := by
  refine ⟨hp.lt, ?_, hq.ge.resolve_left (by have := hp.least; omega)⟩
  have hstep : (2 : ℚ) ^ (d + 1) ≤ 2 ^ e := zpow_le_zpow_right₀ (by norm_num) (by omega)
  rw [zpow_add_one₀ (by norm_num)] at hstep
  linarith

theorem IsExponentOf.le {p q : ℚ} {d e : ℤ} (hp : IsExponentOf p d) (hq : IsExponentOf q e)
    (h : p ≤ q) : d ≤ e := by
  by_contra hlt
  obtain ⟨h₁, h₂, h₃⟩ := hq.le_of_lt hp (not_le.mp hlt)
  linarith

theorem IsExponentOf.eq_exponentOf {q : ℚ} {e : ℤ} (hq : 0 ≤ q) (h : IsExponentOf q e) :
    exponentOf q = e :=
  le_antisymm ((isExponentOf_exponentOf hq).le h le_rfl) (h.le (isExponentOf_exponentOf hq) le_rfl)

/-! ## Ranks -/

/-- Rank of the number with a mantissa and an exponent. -/
def rankAt (m e : ℤ) : ℤ := m + (e + 149) * 2 ^ 23

/-- Rank of infinity. -/
def top : ℤ := 255 * 2 ^ 23

theorem top_pos : 0 < top := by norm_num [top]

/-- Rank of the number nearest to a rational that is not negative, were there no largest. -/
def rankOf (q : ℚ) : ℤ := rankAt (roundEven (q / 2 ^ exponentOf q)) (exponentOf q)

/-- The mantissa after rounding has at most one bit too many, and that only as a power of two. -/
theorem roundEven_div_bounds {q : ℚ} {e : ℤ} (hq : 0 ≤ q) (h : IsExponentOf q e) :
    0 ≤ roundEven (q / 2 ^ e) ∧ roundEven (q / 2 ^ e) ≤ 2 ^ 24 ∧
      (e = -149 ∨ 2 ^ 23 ≤ roundEven (q / 2 ^ e)) := by
  have hpos := two_zpow_pos e
  refine ⟨?_, ?_, h.ge.imp_right fun hge => ?_⟩
  · apply le_roundEven
    rw [Int.cast_zero]
    positivity
  · apply roundEven_le
    rw [div_le_iff₀ hpos]
    push_cast
    exact h.lt.le
  · apply le_roundEven
    rw [le_div_iff₀ hpos]
    push_cast
    exact hge

theorem rankOf_mono {p q : ℚ} (hp : 0 ≤ p) (h : p ≤ q) : rankOf p ≤ rankOf q := by
  have hep := isExponentOf_exponentOf hp
  have heq := isExponentOf_exponentOf (hp.trans h)
  rcases (hep.le heq h).lt_or_eq with hlt | hsame
  · -- the largest mantissa of one exponent is not above the least of a greater one
    have hhigh := (roundEven_div_bounds hp hep).2.1
    have hlow := (roundEven_div_bounds (hp.trans h) heq).2.2.resolve_left
      (by have := hep.least; omega)
    simp only [rankOf, rankAt]
    omega
  · rw [rankOf, rankOf, ← hsame]
    have := roundEven_mono (div_le_div_of_nonneg_right h (two_zpow_pos (exponentOf p)).le)
    simp only [rankAt]
    omega

theorem rankOf_nonneg {q : ℚ} (hq : 0 ≤ q) : 0 ≤ rankOf q := by
  have he := isExponentOf_exponentOf hq
  have hm := (roundEven_div_bounds hq he).1
  have hleast := he.least
  simp only [rankOf, rankAt]
  omega

/-! ## Numbers with a mantissa of 24 bits -/

/-- Mantissa and exponent of a binary32 number, were there no largest exponent. -/
structure IsMantissa (m e : ℤ) : Prop where
  nonneg : 0 ≤ m
  lt : m < 2 ^ 24
  ge : e = -149 ∨ 2 ^ 23 ≤ m
  least : -149 ≤ e

variable {m e : ℤ}

theorem IsMantissa.isExponentOf (h : IsMantissa m e) : IsExponentOf (m * 2 ^ e) e := by
  have hpos := two_zpow_pos e
  constructor
  · apply mul_lt_mul_of_pos_right _ hpos
    exact_mod_cast h.lt
  · refine h.ge.imp_right fun hge => ?_
    apply mul_le_mul_of_nonneg_right _ hpos.le
    exact_mod_cast hge
  · exact h.least

theorem IsMantissa.value_nonneg (h : IsMantissa m e) : (0 : ℚ) ≤ m * 2 ^ e := by
  have hm : (0 : ℚ) ≤ m := by exact_mod_cast h.nonneg
  exact mul_nonneg hm (two_zpow_pos e).le

/-- Rounding leaves a number with 24 bits where it is. -/
theorem rankOf_mantissa (h : IsMantissa m e) : rankOf (m * 2 ^ e) = rankAt m e := by
  rw [rankOf, h.isExponentOf.eq_exponentOf h.value_nonneg,
    mul_div_cancel_right₀ _ (two_zpow_pos e).ne', roundEven_intCast]

/-- The rank of a number with 24 bits tells its order. -/
theorem IsMantissa.rankAt_lt_iff {m' e' : ℤ} (h : IsMantissa m e) (h' : IsMantissa m' e') :
    rankAt m e < rankAt m' e' ↔ (m : ℚ) * 2 ^ e < m' * 2 ^ e' := by
  constructor
  · intro hlt
    by_contra hle
    have := rankOf_mono h'.value_nonneg (not_lt.mp hle)
    rw [rankOf_mantissa h, rankOf_mantissa h'] at this
    omega
  · intro hlt
    rcases (h.isExponentOf.le h'.isExponentOf hlt.le).lt_or_eq with he | rfl
    · have hhigh := h.lt
      have hlow := h'.ge.resolve_left (by have := h.least; omega)
      simp only [rankAt]
      omega
    · have hm : (m : ℚ) < m' := lt_of_mul_lt_mul_right hlt (two_zpow_pos e).le
      have : m < m' := by exact_mod_cast hm
      simp only [rankAt]
      omega

/-! ## Signed numbers -/

/-- Rank of the number nearest to a rational, negative for negative numbers. -/
def nearest (q : ℚ) : ℤ := if 0 ≤ q then min (rankOf q) top else -min (rankOf (-q)) top

theorem rankOf_zero : rankOf 0 = 0 := by
  have h : IsMantissa 0 (-149) := ⟨le_rfl, by norm_num, Or.inl rfl, le_rfl⟩
  simpa [rankAt] using rankOf_mantissa h

theorem nearest_zero : nearest 0 = 0 := by
  simp [nearest, rankOf_zero, top]

theorem nearest_neg (q : ℚ) : nearest (-q) = -nearest q := by
  unfold nearest
  rcases lt_trichotomy q 0 with h | rfl | h
  · rw [if_pos (by linarith), if_neg (by linarith)]
    omega
  · simp [rankOf_zero, top]
  · rw [if_neg (by linarith), if_pos h.le, neg_neg]

theorem nearest_mono {p q : ℚ} (h : p ≤ q) : nearest p ≤ nearest q := by
  have htop := top_pos.le
  unfold nearest
  split_ifs with hp hq hq
  · exact min_le_min_right _ (rankOf_mono hp h)
  · linarith
  · have h₁ := rankOf_nonneg (q := -p) (by linarith)
    have h₂ := rankOf_nonneg hq
    omega
  · exact neg_le_neg (min_le_min_right _ (rankOf_mono (by linarith) (by linarith)))

theorem nearest_bounds (q : ℚ) : -top ≤ nearest q ∧ nearest q ≤ top := by
  have htop := top_pos.le
  unfold nearest
  split_ifs with hq
  · have := rankOf_nonneg hq
    omega
  · have := rankOf_nonneg (q := -q) (by linarith)
    omega

/-- A number is rounded to infinity only where it is beyond the largest one by half a unit. -/
theorem nearest_lt_top {q : ℚ} (h : |q| < (2 ^ 24 - 1 / 2) * 2 ^ (104 : ℤ)) :
    -top < nearest q ∧ nearest q < top := by
  have hnonneg : ∀ {q : ℚ}, 0 ≤ q → q < (2 ^ 24 - 1 / 2) * 2 ^ (104 : ℤ) → rankOf q < top := by
    intro q hq hlt
    have he := isExponentOf_exponentOf hq
    have hhigh := (roundEven_div_bounds hq he).2.1
    unfold rankOf rankAt top
    rcases lt_trichotomy (exponentOf q) 104 with hexp | hexp | hexp
    · omega
    · rw [hexp] at hhigh ⊢
      have := roundEven_le_of_lt_half (q := q / 2 ^ (104 : ℤ)) (k := 2 ^ 24 - 1) (by
        rw [div_lt_iff₀ (two_zpow_pos 104)]
        push_cast
        linarith)
      omega
    · exfalso
      have hge := he.ge.resolve_left (by omega)
      have hpow : (2 : ℚ) ^ (105 : ℤ) ≤ 2 ^ exponentOf q :=
        zpow_le_zpow_right₀ (by norm_num) (by omega)
      norm_num at hlt hpow hge
      linarith
  have htop := top_pos
  unfold nearest
  split
  · rename_i hq
    rw [abs_of_nonneg hq] at h
    have := hnonneg hq h
    have := rankOf_nonneg hq
    omega
  · rename_i hq
    rw [abs_of_neg (not_le.mp hq)] at h
    have := hnonneg (q := -q) (by linarith) h
    have := rankOf_nonneg (q := -q) (by linarith)
    omega

theorem nearest_of_mantissa (h : IsMantissa m e) : nearest (m * 2 ^ e) = min (rankAt m e) top := by
  rw [nearest, if_pos h.value_nonneg, rankOf_mantissa h]

end PlantGrowth.Rounding
