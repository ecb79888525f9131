import PlantGrowth.Proofs.Separation
import PlantGrowth.Proofs.Rounding
import PlantGrowth.Decimal.Text

/-!
# What the shortest decimal is near to

The search through the decimal grids ends with a point of the cell that is one of the two nearest
of its grid (`Cell.Even.search_nearest`): where the cell reaches as far down as up, a grid with a
point in the cell has a nearest point there, and a grid finer than the cell has one in any case. So
the search ends on the first grid that is finer than the cell, or before.

A scalar that is no power of two has such a cell (`shortest_spec`), and then the digits of its
decimal fill at most 28 bits (`IsShortest.coefficient_lt`).
-/

set_option autoImplicit false

namespace PlantGrowth.Decimal

open Rounding

theorem two_zpow_quarter (e : ℤ) : (2 : ℚ) ^ e = 4 * 2 ^ (e - 2) := by
  rw [zpow_sub₀ (by norm_num)]
  ring

namespace Cell

/-- The number that the cell is around. -/
def center (c : Cell) : ℚ := c.middle * 2 ^ c.exponent

/-- The cell reaches `reach` quarter units down and up. -/
structure Even (c : Cell) (reach : ℕ) : Prop where
  low : c.low + reach = c.middle
  high : c.high = c.middle + reach

/-- The rational rounds to the number. -/
def Contains (c : Cell) (q : ℚ) : Prop :=
  if c.closed then c.low * 2 ^ c.exponent ≤ q ∧ q ≤ c.high * 2 ^ c.exponent
  else c.low * 2 ^ c.exponent < q ∧ q < c.high * 2 ^ c.exponent

variable {c : Cell} {reach : ℕ} {tie : Tie}

theorem exists_scale (c : Cell) (k : ℤ) :
    ∃ s : ℚ, 0 < s ∧ ((c.scale k).1 : ℚ) = 2 ^ c.exponent * s ∧
      ((c.scale k).2 : ℚ) = 10 ^ k * s := by
  refine ⟨2 ^ (-c.exponent).toNat * 10 ^ (-k).toNat, by positivity, ?_, ?_⟩
  · have h := zpow_eq_div 2 c.exponent
    push_cast at h
    rw [h, scale]
    simp only [Nat.pow_eq]
    push_cast
    field_simp
  · have h := zpow_eq_div 10 k
    push_cast at h
    rw [h, scale]
    simp only [Nat.pow_eq]
    push_cast
    field_simp

theorem holds_iff (c : Cell) (n : ℕ) (k : ℤ) : c.holds n k = true ↔ c.Contains (n * 10 ^ k) := by
  obtain ⟨s, hs, hnum, hden⟩ := c.exists_scale k
  have hle : ∀ x : ℕ, x * (c.scale k).1 ≤ n * (c.scale k).2 ↔
      (x : ℚ) * 2 ^ c.exponent ≤ n * 10 ^ k := by
    intro x
    rw [← mul_le_mul_iff_left₀ hs, mul_assoc, mul_assoc, ← hnum, ← hden]
    norm_cast
  have hge : ∀ x : ℕ, n * (c.scale k).2 ≤ x * (c.scale k).1 ↔
      (n : ℚ) * 10 ^ k ≤ x * 2 ^ c.exponent := by
    intro x
    rw [← mul_le_mul_iff_left₀ hs, mul_assoc, mul_assoc, ← hnum, ← hden]
    norm_cast
  unfold holds Contains
  dsimp only
  split
  · simp [hle, hge]
  · simp [← not_le, hle, hge]

theorem Even.contains_iff (h : c.Even reach) (q : ℚ) :
    c.Contains q ↔ if c.closed then |q - c.center| ≤ reach * 2 ^ c.exponent
      else |q - c.center| < reach * 2 ^ c.exponent := by
  have hlow : (c.low : ℚ) = c.middle - reach := by
    rw [← h.low]
    push_cast
    ring
  have hhigh : (c.high : ℚ) = c.middle + reach := by exact_mod_cast h.high
  unfold Contains center
  rw [hlow, hhigh]
  split
  · rw [abs_le]
    constructor <;> rintro ⟨h₁, h₂⟩ <;> constructor <;> linarith
  · rw [abs_lt]
    constructor <;> rintro ⟨h₁, h₂⟩ <;> constructor <;> linarith

/-- What is nearer to the number than a rational of the cell is in the cell. -/
theorem Even.contains_of_le (h : c.Even reach) {p q : ℚ} (hq : c.Contains q)
    (hle : |p - c.center| ≤ |q - c.center|) : c.Contains p := by
  rw [h.contains_iff] at hq ⊢
  by_cases hclosed : c.closed = true
  · rw [if_pos hclosed] at hq ⊢
    exact hle.trans hq
  · rw [if_neg hclosed] at hq ⊢
    exact hle.trans_lt hq

theorem Even.contains_of_lt (h : c.Even reach) {p : ℚ}
    (hlt : |p - c.center| < reach * 2 ^ c.exponent) : c.Contains p := by
  rw [h.contains_iff]
  split
  · exact hlt.le
  · exact hlt

/-- The point of the grid is in the cell and nearest to the number. -/
structure Nearest (c : Cell) (n : ℕ) (k : ℤ) : Prop where
  mem : c.Contains (n * 10 ^ k)
  near : |n * 10 ^ k - c.center| ≤ 10 ^ k / 2

/-- The neighbours on a grid. -/
theorem below_le (c : Cell) (k : ℤ) :
    ((c.middle * (c.scale k).1 / (c.scale k).2 : ℕ) : ℚ) * 10 ^ k ≤ c.center ∧
      c.center < ((c.middle * (c.scale k).1 / (c.scale k).2 : ℕ) + 1 : ℚ) * 10 ^ k := by
  obtain ⟨s, hs, hnum, hden⟩ := c.exists_scale k
  have hpow : (0 : ℚ) < 10 ^ k := by positivity
  have hpos : 0 < (c.scale k).2 := by
    have : (0 : ℚ) < (c.scale k).2 := by
      rw [hden]
      positivity
    exact_mod_cast this
  have hle : ((c.middle * (c.scale k).1 / (c.scale k).2 : ℕ) : ℚ) * (c.scale k).2 ≤
      c.middle * (c.scale k).1 := by
    exact_mod_cast Nat.div_mul_le_self _ _
  have hlt : (c.middle * (c.scale k).1 : ℚ) <
      ((c.middle * (c.scale k).1 / (c.scale k).2 : ℕ) + 1) * (c.scale k).2 := by
    rw [mul_comm _ ((c.scale k).2 : ℚ)]
    exact_mod_cast Nat.lt_mul_div_succ _ hpos
  generalize c.middle * (c.scale k).1 / (c.scale k).2 = b at hle hlt ⊢
  rw [hnum, hden, ← mul_assoc, ← mul_assoc] at hle hlt
  exact ⟨le_of_mul_le_mul_right hle hs, lt_of_mul_lt_mul_right hlt hs.le⟩

/-- Of two points the only one in the cell is not the farther one. -/
theorem Even.near_of_only (h : c.Even reach) {p q g : ℚ} (hp : c.Contains p) (hq : ¬ c.Contains q)
    (hsum : |p - c.center| + |q - c.center| = g) : |p - c.center| ≤ g / 2 := by
  by_contra hfar
  exact hq (h.contains_of_le hp (by linarith))

/-- A point that a grid yields is in the cell and one of its nearest. -/
theorem Even.nearest_of_onGrid (h : c.Even reach) {k : ℤ} {n : ℕ} (hn : c.onGrid? tie k = some n) :
    c.Nearest n k := by
  obtain ⟨hbelow, habove⟩ := c.below_le k
  obtain ⟨s, hs, hnum, hden⟩ := c.exists_scale k
  have hcenter : (2 * (c.middle * (c.scale k).1) : ℚ) = 2 * c.center * s := by
    rw [hnum, center]
    ring
  unfold onGrid? at hn
  dsimp only at hn
  generalize c.middle * (c.scale k).1 / (c.scale k).2 = b at hn hbelow habove
  have hb : |(b : ℚ) * 10 ^ k - c.center| = c.center - b * 10 ^ k := by
    rw [abs_sub_comm, abs_of_nonneg (by linarith)]
  have ha : |((b + 1 : ℕ) : ℚ) * 10 ^ k - c.center| = b * 10 ^ k + 10 ^ k - c.center := by
    push_cast
    rw [abs_of_nonneg (by linarith)]
    ring
  -- twice the number is compared with the sum of the neighbours
  have hhalf : (((b + (b + 1)) * (c.scale k).2 : ℕ) : ℚ) = (2 * b * 10 ^ k + 10 ^ k) * s := by
    push_cast
    rw [hden]
    ring
  have hlow : 2 * (c.middle * (c.scale k).1) ≤ (b + (b + 1)) * (c.scale k).2 →
      |(b : ℚ) * 10 ^ k - c.center| ≤ 10 ^ k / 2 := by
    intro hle
    have hle' : (2 * (c.middle * (c.scale k).1) : ℚ) ≤ ((b + (b + 1)) * (c.scale k).2 : ℕ) := by
      exact_mod_cast hle
    rw [hcenter, hhalf] at hle'
    have := le_of_mul_le_mul_right hle' hs
    linarith
  have hhigh : (b + (b + 1)) * (c.scale k).2 ≤ 2 * (c.middle * (c.scale k).1) →
      |((b + 1 : ℕ) : ℚ) * 10 ^ k - c.center| ≤ 10 ^ k / 2 := by
    intro hle
    have hle' : (((b + (b + 1)) * (c.scale k).2 : ℕ) : ℚ) ≤ 2 * (c.middle * (c.scale k).1) := by
      exact_mod_cast hle
    rw [hcenter, hhalf] at hle'
    have := le_of_mul_le_mul_right hle' hs
    linarith
  split at hn
  · cases hn
  · rename_i hin hout
    obtain rfl : b = n := Option.some.inj hn
    rw [holds_iff] at hin
    rw [← Bool.not_eq_true, holds_iff] at hout
    exact ⟨hin, h.near_of_only hin hout (by rw [hb, ha]; ring)⟩
  · rename_i hout hin
    obtain rfl : b + 1 = n := Option.some.inj hn
    rw [holds_iff] at hin
    rw [← Bool.not_eq_true, holds_iff] at hout
    exact ⟨hin, h.near_of_only hin hout (by rw [hb, ha]; ring)⟩
  · rename_i hinb hina
    rw [holds_iff] at hinb hina
    split_ifs at hn with hlt hgt
    · obtain rfl : b = n := Option.some.inj hn
      exact ⟨hinb, hlow hlt.le⟩
    · obtain rfl : b + 1 = n := Option.some.inj hn
      exact ⟨hina, hhigh hgt.le⟩
    · have hchoose : tie.choose b = b ∨ tie.choose b = b + 1 := by
        cases tie with
        | even => exact ite_eq_or_eq _ _ _
        | up => exact Or.inr rfl
      obtain rfl : tie.choose b = n := Option.some.inj hn
      rcases hchoose with hc | hc <;> rw [hc]
      · exact ⟨hinb, hlow (not_lt.mp hgt)⟩
      · exact ⟨hina, hhigh (not_lt.mp hlt)⟩

/-- A grid that is finer than the cell has a point in it. -/
theorem Even.onGrid_isSome (h : c.Even reach) {k : ℤ}
    (hk : (10 : ℚ) ^ k < 2 * reach * 2 ^ c.exponent) : ∃ n, c.onGrid? tie k = some n := by
  obtain ⟨hbelow, habove⟩ := c.below_le k
  unfold onGrid?
  dsimp only
  generalize c.middle * (c.scale k).1 / (c.scale k).2 = b at hbelow habove
  have hone : c.holds b k = true ∨ c.holds (b + 1) k = true := by
    rw [holds_iff, holds_iff]
    rcases le_total (c.center - b * 10 ^ k) (10 ^ k / 2) with hnear | hfar
    · refine Or.inl (h.contains_of_lt ?_)
      rw [abs_sub_comm, abs_of_nonneg (by linarith)]
      linarith
    · refine Or.inr (h.contains_of_lt ?_)
      push_cast
      rw [abs_of_nonneg (by linarith)]
      linarith
  split
  · rename_i hb ha
    rw [hb, ha] at hone
    simp at hone
  · exact ⟨_, rfl⟩
  · exact ⟨_, rfl⟩
  · split_ifs <;> exact ⟨_, rfl⟩

/-- The search ends near the number, on the grid `10 ^ g` at the latest if that is finer than the
cell. Where this is also the last grid, it has to hold the number itself. -/
theorem Even.search_nearest (tie : Tie) (h : c.Even reach) {g : ℤ}
    (hg : (10 : ℚ) ^ g < 2 * reach * 2 ^ c.exponent) :
    ∀ (steps : ℕ) (k : ℤ), k - steps ≤ g → g ≤ k →
      (g = k - steps → ((c.middle * (c.scale g).1 / (c.scale g).2 : ℕ) : ℚ) * 10 ^ g = c.center) →
      c.Nearest (c.search tie steps k).coefficient (c.search tie steps k).exponent ∧
        g ≤ (c.search tie steps k).exponent := by
  intro steps
  induction steps with
  | zero =>
    intro k hlow hhigh hexact
    obtain rfl : g = k := by omega
    have hcenter := hexact (by omega)
    have hpow : (0 : ℚ) < 10 ^ g := by positivity
    refine ⟨⟨?_, ?_⟩, le_rfl⟩
    · apply h.contains_of_lt
      simp only [search]
      rw [hcenter, sub_self, abs_zero]
      linarith
    · simp only [search]
      rw [hcenter, sub_self, abs_zero]
      positivity
  | succ steps ih =>
    intro k hlow hhigh hexact
    rw [search]
    cases hn : c.onGrid? tie k with
    | some n => exact ⟨h.nearest_of_onGrid hn, hhigh⟩
    | none =>
      -- a grid as fine as the last one would have had a point
      have hne : g ≠ k := by
        rintro rfl
        obtain ⟨n, hsome⟩ : ∃ n, c.onGrid? tie g = some n := h.onGrid_isSome hg
        rw [hn] at hsome
        cases hsome
      push_cast at hlow hexact
      exact ih (k - 1) (by omega) (by omega) fun hlast => hexact (by omega)

/-! ## Cells of scalars -/

theorem even_ofDyadic {m : ℕ} {e : ℤ} (hm : 0 < m) : (ofDyadic m e false).Even 2 := by
  constructor
  · change 4 * m - 2 + 2 = 4 * m
    omega
  · rfl

/-- A cell of whole quarter units has a whole center. -/
theorem center_of_whole {c : Cell} (h : 0 ≤ c.exponent) :
    ((c.middle * (c.scale 0).1 / (c.scale 0).2 : ℕ) : ℚ) * 10 ^ (0 : ℤ) = c.center := by
  have hneg : (-c.exponent).toNat = 0 := by omega
  have hpow : (2 : ℚ) ^ c.exponent = 2 ^ c.exponent.toNat := by
    rw [← zpow_natCast]
    congr 1
    omega
  simp [scale, center, hneg, hpow]

theorem center_ofDyadic (m : ℕ) (e : ℤ) (atPower : Bool) :
    (ofDyadic m e atPower).center = m * 2 ^ e := by
  simp only [center, ofDyadic]
  rw [zpow_sub₀ (by norm_num)]
  push_cast
  ring

/-- A whole number in the cell has no more digits than the search starts with. -/
theorem le_wholeDigits {c : Cell} {g : ℕ} (h : (10 : ℚ) ^ g ≤ c.high * 2 ^ c.exponent) :
    g < c.wholeDigits := by
  obtain ⟨s, hs, hnum, hden⟩ := c.exists_scale 0
  have hden' : ((c.scale 0).2 : ℚ) = s := by simpa using hden
  have hpos : 0 < (c.scale 0).2 := by
    rw [← hden'] at hs
    exact_mod_cast hs
  have hle : 10 ^ g ≤ c.high * (c.scale 0).1 / (c.scale 0).2 := by
    rw [Nat.le_div_iff_mul_le hpos]
    have hscaled := mul_le_mul_of_nonneg_right h hs.le
    rw [mul_assoc, ← hnum, ← hden'] at hscaled
    exact_mod_cast hscaled
  by_contra hlt
  unfold wholeDigits at hlt
  generalize c.high * (c.scale 0).1 / (c.scale 0).2 = n at hle hlt
  have hlength : (Nat.toDigits 10 n).length ≤ g := not_lt.mp hlt
  have hg : 0 < g := lt_of_lt_of_le Nat.length_toDigits_pos hlength
  rw [Nat.length_toDigits_le_iff (by norm_num) hg] at hlength
  omega

/-- The search starts no later than with the last grid that is finer than the unit. -/
theorem le_wholeDigits_ofDyadic {m : ℕ} {e k : ℤ} (hm : 0 < m) (hk : (10 : ℚ) ^ k < 2 ^ e) :
    k ≤ (ofDyadic m e false).wholeDigits := by
  rcases lt_or_ge k 0 with hneg | hnonneg
  · omega
  · obtain ⟨g, rfl⟩ := Int.eq_ofNat_of_zero_le hnonneg
    have hhigh : (4 : ℚ) ≤ (ofDyadic m e false).high := by
      change (4 : ℚ) ≤ (4 * m + 2 : ℕ)
      exact_mod_cast (by omega)
    have hle : (10 : ℚ) ^ g ≤ (ofDyadic m e false).high * 2 ^ (ofDyadic m e false).exponent := by
      calc (10 : ℚ) ^ g ≤ 2 ^ e := by exact_mod_cast hk.le
        _ = 4 * 2 ^ (e - 2) := two_zpow_quarter e
        _ ≤ _ := mul_le_mul_of_nonneg_right hhigh (two_zpow_pos _).le
    exact_mod_cast (le_wholeDigits hle).le

end Cell

/-- The rational that a decimal stands for. -/
def Numeral.value (d : Numeral) : ℚ := d.coefficient * 10 ^ d.exponent

/-- What the decimal has that is found for the number `m * 2 ^ e`. -/
structure IsShortest (m : ℕ) (e : ℤ) (d : Numeral) : Prop where
  /-- It rounds to the number. -/
  inside : if m % 2 = 0 then |d.value - m * 2 ^ e| ≤ 2 ^ (e - 1)
    else |d.value - m * 2 ^ e| < 2 ^ (e - 1)
  /-- It is next to the number on its grid. -/
  near : |d.value - m * 2 ^ e| ≤ 10 ^ d.exponent / 2
  /-- Its grid is the last that is finer than the unit, or coarser. -/
  grid : gridOver e - 1 ≤ d.exponent

theorem gridOver_bounds {e : ℤ} (hlow : -149 ≤ e) (hhigh : e ≤ 104) :
    -44 ≤ gridOver e ∧ gridOver e ≤ 32 ∧ (2 ≤ e → 1 ≤ gridOver e) ∧ (e ≤ 1 → e ≤ gridOver e) := by
  unfold gridOver
  omega

theorem shortest_spec {m : ℕ} {e : ℤ} (hm : 0 < m) (hlow : -149 ≤ e) (hhigh : e ≤ 104)
    (hplain : ¬ (m = 2 ^ 23 ∧ -149 < e)) : IsShortest m e (shortest .binary32 .even m e) := by
  have hcell : shortest .binary32 .even m e = (Cell.ofDyadic m e false).shortest .even := by
    have hdef : shortest .binary32 .even m e =
        (Cell.ofDyadic m e (m = 2 ^ 23 ∧ -149 < e)).shortest .even := by
      simp [shortest]
    rw [hdef, decide_eq_false hplain]
  have heven := Cell.even_ofDyadic (e := e) hm
  have hcenter := Cell.center_ofDyadic m e false
  have hexponent : (Cell.ofDyadic m e false).exponent = e - 2 := rfl
  have hunit : 2 * ((2 : ℕ) : ℚ) * 2 ^ (e - 2) = 2 ^ e := by
    rw [two_zpow_quarter e]
    norm_num
  obtain ⟨-, -, hwhole, hsmall⟩ := gridOver_bounds hlow hhigh
  have hfine : (10 : ℚ) ^ (gridOver e - 1) < 2 ^ e := by
    have h := finer_grid hlow hhigh
    have hpow : (0 : ℚ) < 10 ^ (gridOver e - 1) := by positivity
    linarith
  have hstart := Cell.le_wholeDigits_ofDyadic hm hfine
  have hsearch := heven.search_nearest .even (by rwa [hexponent, hunit])
    ((Cell.ofDyadic m e false).wholeDigits + (-(e - 2)).toNat)
    (Cell.ofDyadic m e false).wholeDigits (by push_cast; omega) hstart (fun hlast => by
      -- only a cell of whole quarter units is searched down to the last grid
      push_cast at hlast
      obtain hzero : gridOver e - 1 = 0 := by omega
      rw [hzero]
      exact Cell.center_of_whole (by rw [hexponent]; omega))
  rw [hcell]
  unfold Cell.shortest
  rw [hexponent]
  generalize (Cell.ofDyadic m e false).search .even
    ((Cell.ofDyadic m e false).wholeDigits + (-(e - 2)).toNat)
    (Cell.ofDyadic m e false).wholeDigits = d at hsearch ⊢
  obtain ⟨⟨hmem, hnear⟩, hgrid⟩ := hsearch
  rw [hcenter] at hnear
  refine ⟨?_, hnear, hgrid⟩
  rw [heven.contains_iff, hcenter, hexponent] at hmem
  have hreach : ((2 : ℕ) : ℚ) * 2 ^ (e - 2) = 2 ^ (e - 1) := by
    rw [two_zpow_double (e - 1), show e - 1 - 1 = e - 2 by ring, Nat.cast_ofNat]
  rw [hreach] at hmem
  simpa [Cell.ofDyadic, Numeral.value] using hmem

namespace IsShortest

variable {m : ℕ} {e : ℤ} {d : Numeral}

theorem distance_le (h : IsShortest m e d) : |d.value - m * 2 ^ e| ≤ 2 ^ (e - 1) := by
  have hinside := h.inside
  split at hinside
  · exact hinside
  · exact hinside.le

theorem value_pos (h : IsShortest m e d) (hm : 0 < m) : 0 < d.value := by
  have hunit := two_zpow_pos e
  have hhalf := (abs_le.mp h.distance_le).1
  have hm' : (1 : ℚ) ≤ m := by exact_mod_cast hm
  have := mul_le_mul_of_nonneg_right hm' hunit.le
  rw [zpow_sub_one₀ (by norm_num)] at hhalf
  linarith

theorem value_le (h : IsShortest m e d) (hM : IsMantissa m e) : d.value ≤ 2 ^ 24 * 2 ^ e := by
  have hunit := two_zpow_pos e
  have hhalf := (abs_le.mp h.distance_le).2
  have hm' : (m : ℚ) ≤ 2 ^ 24 - 1 := by
    have := hM.lt
    have : (m : ℤ) ≤ 2 ^ 24 - 1 := by omega
    exact_mod_cast this
  have := mul_le_mul_of_nonneg_right hm' hunit.le
  rw [zpow_sub_one₀ (by norm_num)] at hhalf
  linarith

theorem coefficient_pos (h : IsShortest m e d) (hm : 0 < m) : 0 < d.coefficient := by
  have hpos := h.value_pos hm
  rw [Numeral.value, mul_pos_iff_of_pos_right (by positivity)] at hpos
  exact_mod_cast hpos

/-- The digits of the decimal fill at most 28 bits. -/
theorem coefficient_lt (h : IsShortest m e d) (hM : IsMantissa m e) (hhigh : e ≤ 104) :
    d.coefficient < 2 ^ 28 := by
  have hle : (d.coefficient : ℚ) * 10 ^ d.exponent ≤ 2 ^ 24 * 10 * 10 ^ d.exponent := by
    calc (d.coefficient : ℚ) * 10 ^ d.exponent ≤ 2 ^ 24 * 2 ^ e := h.value_le hM
      _ ≤ 2 ^ 24 * 10 ^ gridOver e := by
          have := unit_le_grid hM.least hhigh
          gcongr
      _ = 2 ^ 24 * 10 * 10 ^ (gridOver e - 1) := by
          rw [zpow_sub_one₀ (by norm_num)]
          ring
      _ ≤ 2 ^ 24 * 10 * 10 ^ d.exponent := by
          have := zpow_le_zpow_right₀ (by norm_num : (1 : ℚ) ≤ 10) h.grid
          gcongr
  have hcoefficient := le_of_mul_le_mul_right hle (by positivity)
  have : d.coefficient ≤ 2 ^ 24 * 10 := by exact_mod_cast hcoefficient
  omega

theorem exponent_bounds (h : IsShortest m e d) (hM : IsMantissa m e) (hm : 0 < m)
    (hhigh : e ≤ 104) : -45 ≤ d.exponent ∧ d.exponent ≤ 38 := by
  have hgrid := h.grid
  have hbounds := gridOver_bounds hM.least hhigh
  refine ⟨by omega, ?_⟩
  have hone : (1 : ℚ) ≤ d.coefficient := by exact_mod_cast h.coefficient_pos hm
  have hlt : (10 : ℚ) ^ d.exponent < 10 ^ (39 : ℤ) := by
    calc (10 : ℚ) ^ d.exponent ≤ d.coefficient * 10 ^ d.exponent :=
          le_mul_of_one_le_left (by positivity) hone
      _ ≤ 2 ^ 24 * 2 ^ e := h.value_le hM
      _ ≤ 2 ^ 24 * 2 ^ (104 : ℤ) := by
          have := zpow_le_zpow_right₀ (by norm_num : (1 : ℚ) ≤ 2) hhigh
          gcongr
      _ < 10 ^ (39 : ℤ) := by norm_num
  have := (zpow_lt_zpow_iff_right₀ (by norm_num)).mp hlt
  omega

end IsShortest

end PlantGrowth.Decimal
