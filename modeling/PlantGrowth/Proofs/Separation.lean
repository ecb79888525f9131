import PlantGrowth.Decimal.Shortest
import Mathlib

/-!
# Decimals away from binary halves

Halfway between two numbers with exponent `E` lies an odd multiple of `2 ^ (E - 1)`. A short
decimal is such a multiple, or it keeps away from all of them by a margin that two roundings to 53
bits cannot close (`separated`): a multiple `n * 10 ^ K` is near `h * 2 ^ (E - 1)` only if `h / n`
is near the ratio of the two units, and fractions near a ratio have large denominators.

For each exponent two fractions around the ratio are computed (`Neighbours.approach`). Whatever
denominator is smaller than the sum of theirs, its fraction is one of the two or keeps the distance
of both (`Neighbours.Around.cases`), so a few integers for each exponent decide the matter, and
`certified` evaluates them. Two exponents have a fraction that comes too near (`Near`).
-/

set_option autoImplicit false

namespace PlantGrowth.Decimal

/-! ## Fractions around a ratio -/

/-- The fractions `p / q` and `p' / q'`. -/
structure Neighbours where
  p : ℕ
  q : ℕ
  p' : ℕ
  q' : ℕ

namespace Neighbours

/-- Distance of the first fraction from `a / b`, times both denominators. -/
def gap (f : Neighbours) (a b : ℕ) : ℕ := f.q * a - f.p * b

/-- Distance of the second fraction from `a / b`, times both denominators. -/
def gap' (f : Neighbours) (a b : ℕ) : ℕ := f.p' * b - f.q' * a

/-- Moves the two fractions in turn towards `a / b`, each as far as it stays on its side with a
denominator of at most `limit`. -/
def approach (a b limit : ℕ) : ℕ → Neighbours → Neighbours
  | 0, f => f
  | steps + 1, f =>
    let room := (limit - f.q) / f.q'
    let t := if f.gap' a b = 0 then room else min (f.gap a b / f.gap' a b) room
    let f := { f with p := f.p + t * f.p', q := f.q + t * f.q' }
    let room := (limit - f.q') / f.q
    let t := if f.gap a b = 0 then room else min (f.gap' a b / f.gap a b) room
    approach a b limit steps { f with p' := f.p' + t * f.p, q' := f.q' + t * f.q }

/-- The fractions lie on both sides of `a / b`, and next to each other. -/
structure Around (f : Neighbours) (a b : ℕ) : Prop where
  det : f.p' * f.q = f.p * f.q' + 1
  below : f.p * b ≤ f.q * a
  above : f.q' * a ≤ f.p' * b

instance (f : Neighbours) (a b : ℕ) : Decidable (f.Around a b) :=
  decidable_of_iff (f.p' * f.q = f.p * f.q' + 1 ∧ f.p * b ≤ f.q * a ∧ f.q' * a ≤ f.p' * b)
    ⟨fun ⟨h₁, h₂, h₃⟩ => ⟨h₁, h₂, h₃⟩, fun ⟨h₁, h₂, h₃⟩ => ⟨h₁, h₂, h₃⟩⟩

/-- Signs of the multiples in a sum that is positive and below the sum of both terms. -/
theorem signs {u v q q' : ℤ} (hq : 0 ≤ q) (hq' : 0 ≤ q') (hpos : 0 < u * q + v * q')
    (hlt : u * q + v * q' < q + q') :
    (0 < u ∧ v = 0) ∨ (u = 0 ∧ 0 < v) ∨ (0 < u ∧ v < 0) ∨ (u < 0 ∧ 0 < v) := by
  have hboth : ¬ (0 < u ∧ 0 < v) := by
    rintro ⟨hu, hv⟩
    have := le_mul_of_one_le_left hq hu
    have := le_mul_of_one_le_left hq' hv
    omega
  have hnone : ¬ (u ≤ 0 ∧ v ≤ 0) := by
    rintro ⟨hu, hv⟩
    have := mul_nonpos_of_nonpos_of_nonneg hu hq
    have := mul_nonpos_of_nonpos_of_nonneg hv hq'
    omega
  omega

/-- Multiples with different signs leave at least both distances between them. -/
theorem add_le_abs {u v d d' : ℤ} (hd : 0 ≤ d) (hd' : 0 ≤ d') (h : 0 < u ∧ v < 0 ∨ u < 0 ∧ 0 < v) :
    d + d' ≤ |u * d - v * d'| := by
  rcases h with ⟨hu, hv⟩ | ⟨hu, hv⟩
  · have h₁ := le_mul_of_one_le_left hd hu
    have h₂ := le_mul_of_one_le_left hd' (show 1 ≤ -v by omega)
    rw [neg_mul] at h₂
    exact le_abs.mpr (Or.inl (by omega))
  · have h₁ := le_mul_of_one_le_left hd (show 1 ≤ -u by omega)
    have h₂ := le_mul_of_one_le_left hd' hv
    rw [neg_mul] at h₁
    exact le_abs.mpr (Or.inr (by omega))

/-- A fraction with a denominator below the sum of the two is one of the two, up to a common
factor, or it is as far from the ratio as both together. -/
theorem Around.cases {f : Neighbours} {a b n h : ℕ} (hf : f.Around a b) (hn : 0 < n)
    (hlt : n < f.q + f.q') :
    (∃ u, 0 < u ∧ n = u * f.q ∧ h = u * f.p ∧ |(n * a - h * b : ℤ)| = (u * f.gap a b : ℕ)) ∨
    (∃ v, 0 < v ∧ n = v * f.q' ∧ h = v * f.p' ∧ |(n * a - h * b : ℤ)| = (v * f.gap' a b : ℕ)) ∨
    (f.gap a b + f.gap' a b : ℕ) ≤ |(n * a - h * b : ℤ)| := by
  obtain ⟨hdet, hbelow, habove⟩ := hf
  have hgap : (f.gap a b : ℤ) = f.q * a - f.p * b := by
    unfold gap
    push_cast [Nat.cast_sub hbelow]
    rfl
  have hgap' : (f.gap' a b : ℤ) = f.p' * b - f.q' * a := by
    unfold gap'
    push_cast [Nat.cast_sub habove]
    rfl
  have hdet' : (f.p' * f.q : ℤ) = f.p * f.q' + 1 := by exact_mod_cast hdet
  -- the fraction as a combination of the two
  obtain ⟨u, hu⟩ : ∃ u : ℤ, u = f.p' * n - f.q' * h := ⟨_, rfl⟩
  obtain ⟨v, hv⟩ : ∃ v : ℤ, v = f.q * h - f.p * n := ⟨_, rfl⟩
  have hn' : (n : ℤ) = u * f.q + v * f.q' := by
    rw [hu, hv]
    linear_combination -(n : ℤ) * hdet'
  have hh : (h : ℤ) = u * f.p + v * f.p' := by
    rw [hu, hv]
    linear_combination -(h : ℤ) * hdet'
  have hvalue : (n * a - h * b : ℤ) = u * f.gap a b - v * f.gap' a b := by
    rw [hgap, hgap', hn', hh]
    ring
  have hd : (0 : ℤ) ≤ f.gap a b := Nat.cast_nonneg _
  have hd' : (0 : ℤ) ≤ f.gap' a b := Nat.cast_nonneg _
  have hsum : 0 < u * f.q + v * f.q' := by omega
  have hsum' : u * f.q + v * f.q' < f.q + f.q' := by omega
  rw [hvalue]
  rcases signs (Nat.cast_nonneg _) (Nat.cast_nonneg _) hsum hsum' with
    ⟨hpos, rfl⟩ | ⟨rfl, hpos⟩ | hmixed
  · obtain ⟨k, rfl⟩ := Int.eq_ofNat_of_zero_le hpos.le
    rw [zero_mul, add_zero] at hn' hh
    refine Or.inl ⟨k, by exact_mod_cast hpos, by exact_mod_cast hn', by exact_mod_cast hh, ?_⟩
    rw [zero_mul, sub_zero, abs_of_nonneg (mul_nonneg hpos.le hd), Nat.cast_mul]
  · obtain ⟨k, rfl⟩ := Int.eq_ofNat_of_zero_le hpos.le
    rw [zero_mul, zero_add] at hn' hh
    refine Or.inr (Or.inl ⟨k, by exact_mod_cast hpos, by exact_mod_cast hn',
      by exact_mod_cast hh, ?_⟩)
    rw [zero_mul, zero_sub, abs_neg, abs_of_nonneg (mul_nonneg hpos.le hd'), Nat.cast_mul]
  · exact Or.inr (Or.inr (by rw [Nat.cast_add]; exact add_le_abs hd hd' hmixed))

end Neighbours

/-! ## The two units -/

/-- Exponent of the finest decimal grid that is no finer than the unit `2 ^ E`. -/
def gridOver (E : ℤ) : ℤ := (E * 30103 + 99999) / 100000

/-- Numerator of the ratio of `10 ^ gridOver E` to half a unit. -/
def unitNum (E : ℤ) : ℕ := 10 ^ (gridOver E).toNat * 2 ^ (1 - E).toNat

/-- Denominator of the ratio of `10 ^ gridOver E` to half a unit. -/
def unitDen (E : ℤ) : ℕ := 2 ^ (E - 1).toNat * 10 ^ (-gridOver E).toNat

/-- Multiples of the grid up to 24 bits of units. -/
def limit (E : ℤ) : ℕ := 2 ^ 25 * unitDen E / unitNum E

theorem unitDen_pos (E : ℤ) : 0 < unitDen E := by
  unfold unitDen
  positivity

theorem unitNum_pos (E : ℤ) : 0 < unitNum E := by
  unfold unitNum
  positivity

theorem zpow_eq_div (b k : ℤ) : (b : ℚ) ^ k = b ^ k.toNat / b ^ (-k).toNat := by
  rcases le_total 0 k with h | h
  · obtain ⟨n, rfl⟩ := Int.eq_ofNat_of_zero_le h
    have hneg : (-(n : ℤ)).toNat = 0 := by omega
    simp [hneg]
  · obtain ⟨n, hn⟩ := Int.eq_ofNat_of_zero_le (show 0 ≤ -k by omega)
    obtain rfl : k = -n := by omega
    have hneg : (-(n : ℤ)).toNat = 0 := by omega
    simp [hneg]

/-- Grid and half unit measured by the same rational. -/
theorem exists_scale (E : ℤ) :
    ∃ s : ℚ, 0 < s ∧ (10 : ℚ) ^ gridOver E = unitNum E * s ∧ (2 : ℚ) ^ (E - 1) = unitDen E * s := by
  refine ⟨1 / (2 ^ (1 - E).toNat * 10 ^ (-gridOver E).toNat), by positivity, ?_, ?_⟩
  · have h := zpow_eq_div 10 (gridOver E)
    push_cast at h
    rw [h, unitNum]
    push_cast
    field_simp
  · have h := zpow_eq_div 2 (E - 1)
    push_cast at h
    rw [h, unitDen, show -(E - 1) = 1 - E by ring]
    push_cast
    field_simp

/-! ## Certificates -/

/-- Exponent and multiple of half a unit where some decimal comes too near. -/
def Near (E : ℤ) (h : ℕ) : Prop := E = 46 ∧ h = 13494369 ∨ E = -107 ∧ h = 22841339

instance (E : ℤ) (h : ℕ) : Decidable (Near E h) :=
  inferInstanceAs (Decidable (_ ∨ _))

/-- Distance that two roundings to 53 bits cannot bridge. -/
def Far (E : ℤ) (d : ℕ) : Prop := (2 ^ 20 + 1) * unitDen E < 2 ^ 47 * d

instance (E : ℤ) (d : ℕ) : Decidable (Far E d) := inferInstanceAs (Decidable (_ < _))

theorem Far.mono {E : ℤ} {d d' : ℕ} (h : Far E d) (hle : d ≤ d') : Far E d' :=
  lt_of_lt_of_le h (Nat.mul_le_mul_left _ hle)

/-- Multiples of a fraction meet the ratio or keep away from it, but for the fraction itself where
that is known to come near. -/
def Clear (E : ℤ) (p q d : ℕ) : Prop :=
  d = 0 ∨ Far E d ∨ Near E p ∧ (limit E < 2 * q ∨ Far E (2 * d))

instance (E : ℤ) (p q d : ℕ) : Decidable (Clear E p q d) := inferInstanceAs (Decidable (_ ∨ _))

theorem Clear.multiple {E : ℤ} {p q d u : ℕ} (h : Clear E p q d) (hu : 0 < u)
    (hle : u * q ≤ limit E) : u * d = 0 ∨ Far E (u * d) ∨ Near E (u * p) := by
  rcases h with rfl | hfar | ⟨hnear, hdouble⟩
  · exact Or.inl (mul_zero u)
  · exact Or.inr (Or.inl (hfar.mono (Nat.le_mul_of_pos_left d hu)))
  · rcases Nat.lt_or_ge 1 u with htwo | hone
    · refine Or.inr (Or.inl ?_)
      rcases hdouble with hlimit | hfar
      · have := Nat.mul_le_mul_right q htwo
        omega
      · exact hfar.mono (Nat.mul_le_mul_right d htwo)
    · obtain rfl : u = 1 := by omega
      rw [one_mul, one_mul]
      exact Or.inr (Or.inr hnear)

/-- The two fractions for an exponent. -/
def neighbours (E : ℤ) : Neighbours :=
  let whole := unitNum E / unitDen E
  .approach (unitNum E) (unitDen E) (limit E) 12 ⟨whole, 1, whole + 1, 1⟩

/-- What the fractions for an exponent have to satisfy. -/
structure Certificate (E : ℤ) (f : Neighbours) : Prop where
  around : f.Around (unitNum E) (unitDen E)
  reach : limit E < f.q + f.q'
  first : Clear E f.p f.q (f.gap (unitNum E) (unitDen E))
  second : Clear E f.p' f.q' (f.gap' (unitNum E) (unitDen E))
  both : Far E (f.gap (unitNum E) (unitDen E) + f.gap' (unitNum E) (unitDen E))
  coarse : 2 * unitDen E ≤ unitNum E
  fine : unitNum E * (2 ^ 20 + 1) ≤ 20 * 2 ^ 20 * unitDen E

instance (E : ℤ) (f : Neighbours) : Decidable (Certificate E f) :=
  decidable_of_iff (f.Around (unitNum E) (unitDen E) ∧ limit E < f.q + f.q' ∧
      Clear E f.p f.q (f.gap (unitNum E) (unitDen E)) ∧
      Clear E f.p' f.q' (f.gap' (unitNum E) (unitDen E)) ∧
      Far E (f.gap (unitNum E) (unitDen E) + f.gap' (unitNum E) (unitDen E)) ∧
      2 * unitDen E ≤ unitNum E ∧ unitNum E * (2 ^ 20 + 1) ≤ 20 * 2 ^ 20 * unitDen E)
    ⟨fun ⟨h₁, h₂, h₃, h₄, h₅, h₆, h₇⟩ => ⟨h₁, h₂, h₃, h₄, h₅, h₆, h₇⟩,
      fun ⟨h₁, h₂, h₃, h₄, h₅, h₆, h₇⟩ => ⟨h₁, h₂, h₃, h₄, h₅, h₆, h₇⟩⟩

set_option maxRecDepth 4000 in
/-- The fractions of every exponent satisfy it. -/
theorem certified : ∀ i : ℕ, i < 254 → Certificate (i - 149) (neighbours (i - 149)) := by
  decide +kernel

theorem certificate {E : ℤ} (hlow : -149 ≤ E) (hhigh : E ≤ 104) : Certificate E (neighbours E) := by
  have h := certified (E + 149).toNat (by omega)
  rwa [show (((E + 149).toNat : ℤ) - 149) = E by omega] at h

/-! ## Separation -/

/-- A decimal on a grid that is no finer than the unit is halfway between two numbers, or keeps
away from there. -/
theorem separated {E : ℤ} (hlow : -149 ≤ E) (hhigh : E ≤ 104) {n h : ℕ} (hn : 0 < n)
    (hle : n * (10 : ℚ) ^ gridOver E ≤ 2 ^ 25 * 2 ^ (E - 1)) :
    n * (10 : ℚ) ^ gridOver E = h * 2 ^ (E - 1) ∨
    (2 ^ 20 + 1) / 2 ^ 47 * (2 : ℚ) ^ (E - 1) < |n * (10 : ℚ) ^ gridOver E - h * 2 ^ (E - 1)| ∨
    Near E h := by
  have hcert := certificate hlow hhigh
  obtain ⟨s, hs, hgrid, hunit⟩ := exists_scale E
  have hden : (0 : ℚ) < unitDen E := by exact_mod_cast unitDen_pos E
  have hlimit : n ≤ limit E := by
    rw [limit, Nat.le_div_iff_mul_le (unitNum_pos E)]
    rw [hgrid, hunit, ← mul_assoc, ← mul_assoc, mul_le_mul_iff_left₀ hs] at hle
    exact_mod_cast hle
  have hdiff : n * (10 : ℚ) ^ gridOver E - h * 2 ^ (E - 1) =
      ((n * unitNum E - h * unitDen E : ℤ) : ℚ) * s := by
    rw [hgrid, hunit]
    push_cast
    ring
  -- a distance of integers as one of rationals
  have hfar : ∀ {d : ℕ}, Far E d → (d : ℤ) ≤ |(n * unitNum E - h * unitDen E : ℤ)| →
      (2 ^ 20 + 1) / 2 ^ 47 * (2 : ℚ) ^ (E - 1) <
        |n * (10 : ℚ) ^ gridOver E - h * 2 ^ (E - 1)| := by
    intro d hd hdle
    have hd' : ((2 ^ 20 + 1) * unitDen E : ℚ) < 2 ^ 47 * d := by exact_mod_cast hd
    have hdle' : (d : ℚ) ≤ |((n * unitNum E - h * unitDen E : ℤ) : ℚ)| := by exact_mod_cast hdle
    rw [hdiff, hunit, abs_mul, abs_of_pos hs, ← mul_assoc]
    apply mul_lt_mul_of_pos_right _ hs
    linarith
  have hmultiple : ∀ {p q d u : ℕ}, Clear E p q d → 0 < u → n = u * q → h = u * p →
      |(n * unitNum E - h * unitDen E : ℤ)| = (u * d : ℕ) →
      n * (10 : ℚ) ^ gridOver E = h * 2 ^ (E - 1) ∨
      (2 ^ 20 + 1) / 2 ^ 47 * (2 : ℚ) ^ (E - 1) < |n * (10 : ℚ) ^ gridOver E - h * 2 ^ (E - 1)| ∨
      Near E h := by
    intro p q d u hclear hu hnu hhu habs
    rcases hclear.multiple hu (by omega) with hzero | hd | hnear
    · left
      rw [hzero, Nat.cast_zero, abs_eq_zero] at habs
      rw [habs, Int.cast_zero, zero_mul, sub_eq_zero] at hdiff
      exact hdiff
    · exact Or.inr (Or.inl (hfar hd habs.ge))
    · exact Or.inr (Or.inr (hhu ▸ hnear))
  rcases hcert.around.cases (h := h) hn (by have := hcert.reach; omega) with
    ⟨u, hu, hnu, hhu, habs⟩ | ⟨v, hv, hnv, hhv, habs⟩ | hboth
  · exact hmultiple hcert.first hu hnu hhu habs
  · exact hmultiple hcert.second hv hnv hhv habs
  · exact Or.inr (Or.inl (hfar hcert.both (by exact_mod_cast hboth)))

/-- The next finer grid is finer than the unit, with some room. -/
theorem finer_grid {E : ℤ} (hlow : -149 ≤ E) (hhigh : E ≤ 104) :
    (10 : ℚ) ^ (gridOver E - 1) * (2 ^ 20 + 1) ≤ 2 ^ 20 * 2 ^ E := by
  have hfine := (certificate hlow hhigh).fine
  obtain ⟨s, hs, hgrid, hunit⟩ := exists_scale E
  have hfine' : (unitNum E * (2 ^ 20 + 1) : ℚ) ≤ 20 * 2 ^ 20 * unitDen E := by exact_mod_cast hfine
  have hscaled := mul_le_mul_of_nonneg_right hfine' hs.le
  rw [zpow_sub_one₀ (by norm_num), hgrid]
  rw [zpow_sub_one₀ (by norm_num)] at hunit
  linarith

theorem unit_le_grid {E : ℤ} (hlow : -149 ≤ E) (hhigh : E ≤ 104) :
    (2 : ℚ) ^ E ≤ 10 ^ gridOver E := by
  have hcoarse := (certificate hlow hhigh).coarse
  obtain ⟨s, hs, hgrid, hunit⟩ := exists_scale E
  have hcoarse' : (2 * unitDen E : ℚ) ≤ unitNum E := by exact_mod_cast hcoarse
  have hscaled := mul_le_mul_of_nonneg_right hcoarse' hs.le
  rw [zpow_sub_one₀ (by norm_num)] at hunit
  rw [hgrid]
  linarith

end PlantGrowth.Decimal
