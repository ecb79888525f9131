import PlantGrowth.Proofs.Drawing
import PlantGrowth.Proofs.Nesting
import PlantGrowth.Proofs.SwayBounds

/-!
# Widths of strokes

A branch is drawn as wide as the taper of its depth says, in units of the tips. The taper is not
clamped: it falls on a line from the width of a trunk of depth one (`trunkWidth`) to one at the age
of the plant, and it is between the two as long as depths are. They are never above the age, so
that deeper branches never have wider strokes and none is thinner than the tips. But the trunk of a
plant has depth zero, one step in front of the line: its stroke exceeds that of depth one
(`Plant.trunk_exceeds_limit`). What holds of all frames is in `Plant.Reachable.stroke_widths`.

Every step of the taper is rounded, and rounding is monotone; so is the taper
(`taper_antitone`). That the line ends at one takes more: the difference of the two widths has to
be exact, as it is up to a trunk of `2 ^ 24` tips (`Scalar.value_one_sub`).
-/

set_option autoImplicit false

namespace PlantGrowth

open Scalar Rounding

/-! ## Exact differences to one -/

namespace Scalar

variable {x y z : Scalar} {p q : ℚ}

/-- Up to `2 ^ 24` a number is so near to one that the difference is not rounded. -/
theorem value_one_sub (hx : x.value? = some p) (hlow : 1 ≤ p) (hhigh : p ≤ 2 ^ 24) :
    (1 - x).value? = some (1 - p) := by
  have hrank := rank_sub value_one hx
  obtain ⟨m, e, hm, rfl, -⟩ := exists_mantissa_of_value hx (by linarith)
  obtain ⟨hnonneg, hlt, hge, hleast⟩ := hm
  suffices h : ∃ u, Denotes u (m * 2 ^ e - 1) by
    obtain ⟨u, hu⟩ := h
    have hneg := hu.neg
    rw [neg_sub] at hneg
    exact value_of_rank hneg hrank
  lift m to ℕ using hnonneg
  rw [Int.cast_natCast] at *
  rcases le_or_gt e 0 with he | he
  · -- one is a multiple of the last bit as well
    obtain ⟨k, rfl⟩ : ∃ k : ℕ, e = -k := ⟨(-e).toNat, by omega⟩
    have hpos := two_zpow_pos (-k)
    have hone : ((2 ^ k : ℕ) : ℚ) * 2 ^ (-k : ℤ) = 1 := by
      rw [zpow_neg, zpow_natCast]
      push_cast
      exact mul_inv_cancel₀ (by positivity)
    have hle : 2 ^ k ≤ m := by
      rw [← hone] at hlow
      exact_mod_cast le_of_mul_le_mul_right hlow hpos
    have hvalue : (m : ℚ) * 2 ^ (-k : ℤ) - 1 = ((m - 2 ^ k : ℕ) : ℚ) * 2 ^ (-k : ℤ) := by
      rw [Nat.cast_sub hle, sub_mul, hone]
    rw [hvalue]
    exact exists_denotes_of_lt ((Nat.sub_le m _).trans_lt (by exact_mod_cast hlt)) hleast (by omega)
  · -- only the bound itself has a greater exponent
    have hfull : (2 : ℚ) ^ 23 ≤ m := by exact_mod_cast hge.resolve_left (by omega)
    have htwo : (2 : ℚ) ^ (1 : ℤ) ≤ 2 ^ e := zpow_le_zpow_right₀ (by norm_num) (by omega)
    have hge : (2 : ℚ) ^ 23 * 2 ^ (1 : ℤ) ≤ m * 2 ^ e :=
      mul_le_mul hfull htwo (by positivity) (by positivity)
    have hvalue : (m : ℚ) * 2 ^ e - 1 = ((2 ^ 24 - 1 : ℕ) : ℚ) * 2 ^ (0 : ℤ) := by
      norm_num at hge hhigh ⊢
      linarith
    rw [hvalue]
    exact exists_denotes_of_lt (by norm_num) (by norm_num) (by norm_num)

/-- What is rounded from a number that is not positive is not positive. -/
theorem nonpos_of_rank (hx : x.rank = nearest p) (hv : x.value? = some q) (hp : p ≤ 0) : q ≤ 0 := by
  refine value_le_of_nearest_le hv value_zero ?_
  rw [← rank_eq_nearest hv, hx]
  exact nearest_mono hp

end Scalar

/-! ## The taper -/

section Taper

variable {age depth depth' : UInt32}

/-- Stroke width of a trunk of depth one relative to the tips. -/
def trunkWidth (age : UInt32) : Scalar := maxNum (0.7 * age.toFloat32) 1

/-- Share of the way from depth one to the tips. -/
def taperShare (depth age : UInt32) : Scalar := (depth.toFloat32 - 1) / (age.toFloat32 - 1)

theorem exists_value_trunkWidth (age : UInt32) :
    ∃ l, (trunkWidth age).value? = some l ∧ 1 ≤ l := by
  obtain ⟨w, hw, hw0, hw1⟩ : ∃ w, value? 0.7 = some w ∧ 0 ≤ w ∧ w ≤ 1 :=
    exists_value_of_le (by decide) value_one (by decide)
  obtain ⟨a, ha, ha0, -⟩ := exists_value_toFloat32 age
  obtain ⟨r, hr, -, -⟩ := exists_value_share hw hw0 hw1 ha ha0
  have hone : (1 : Scalar) ≤ trunkWidth age := le_maxNum_right (by decide)
  have hfinite : (trunkWidth age).isFinite = true := by
    unfold trunkWidth maxNum
    split_ifs
    · decide
    · decide
    · exact isFinite_of_value hr
  obtain ⟨l, hl⟩ := exists_value hfinite
  exact ⟨l, hl, (value_le_iff value_one hl).mp hone⟩

/-- A plant of age one has strokes of one width. -/
theorem taper_age_one (depth : UInt32) : taper depth 1 = trunkWidth 1 := by
  have hspan : ((1 : UInt32).toFloat32 - 1 == 0) = true := by decide
  simp only [taper, remap, hspan, if_true]
  rfl

/-- From age two on there is a way from depth one to the tips, of at least one. -/
theorem exists_value_span (hage : 1 < age) :
    ∃ s, value? (age.toFloat32 - 1) = some s ∧ 1 ≤ s := by
  have htwo : value? (2 : UInt32).toFloat32 = some 2 := value_ofNat 2 (by norm_num)
  have hle : (2 : UInt32) ≤ age := by
    rw [UInt32.lt_iff_toNat_lt] at hage
    exact UInt32.le_iff_toNat_le.mpr hage
  obtain ⟨a, ha, -, -⟩ := exists_value_toFloat32 age
  have ha2 : 2 ≤ a := (value_le_iff htwo ha).mp (toFloat32_le hle)
  have hrank := rank_sub ha value_one
  obtain ⟨s, hs, -⟩ :=
    exists_value_within hrank ha (nearest_mono (abs_le.mpr ⟨by linarith, by linarith⟩))
  refine ⟨s, hs, (value_le_iff value_one hs).mp ?_⟩
  exact le_of_rank (rank_eq_nearest value_one) hrank (by linarith)

theorem taper_eq (hage : 1 < age) (depth : UInt32) :
    taper depth age = trunkWidth age + taperShare depth age * (1 - trunkWidth age) := by
  obtain ⟨s, hs, hs1⟩ := exists_value_span hage
  have hspan : ¬ (age.toFloat32 - 1 == 0) = true := by
    rw [value_beq_iff hs value_zero]
    linarith
  simp only [taper, remap, hspan]
  rfl

/-- The steps from depth one, of which the trunk itself may be one short. -/
theorem exists_value_steps {s : ℚ} (hs : value? (age.toFloat32 - 1) = some s) (hs1 : 1 ≤ s)
    (h : depth ≤ age) :
    ∃ e, value? (depth.toFloat32 - 1) = some e ∧ |e| ≤ s ∧ (1 ≤ depth → 0 ≤ e) := by
  obtain ⟨a, ha, -, -⟩ := exists_value_toFloat32 age
  obtain ⟨d, hd, hd0, -⟩ := exists_value_toFloat32 depth
  have hda : d ≤ a := (value_le_iff hd ha).mp (toFloat32_le h)
  have hrank := rank_sub hd value_one
  have hspan : nearest s = nearest (a - 1) := by
    rw [← rank_eq_nearest hs, rank_sub ha value_one]
  have hbound : nearest |d - 1| ≤ nearest s := by
    rcases abs_choice (d - 1) with habs | habs <;> rw [habs]
    · rw [hspan]
      exact nearest_mono (by linarith)
    · exact nearest_mono (by linarith)
  obtain ⟨e, he, hes⟩ := exists_value_within hrank hs hbound
  refine ⟨e, he, hes, fun hdepth => (value_nonneg_iff he).mp (nonneg_of_rank hrank ?_)⟩
  have hone : value? (1 : UInt32).toFloat32 = some 1 := value_one
  have hd1 : 1 ≤ d := (value_le_iff hone hd).mp (toFloat32_le hdepth)
  linarith

theorem exists_value_taperShare (hage : 1 < age) (h : depth ≤ age) :
    ∃ q, (taperShare depth age).value? = some q ∧ |q| ≤ 1 ∧ (1 ≤ depth → 0 ≤ q) := by
  obtain ⟨s, hs, hs1⟩ := exists_value_span hage
  obtain ⟨e, he, hes, he0⟩ := exists_value_steps hs hs1 h
  have hs0 : 0 < s := by linarith
  have hrank := rank_div he hs hs0.ne'
  have hquotient : |e / s| ≤ 1 := by
    rw [abs_div, abs_of_pos hs0]
    exact (div_le_one hs0).mpr hes
  obtain ⟨q, hq, hq1⟩ := exists_value_within hrank value_one (nearest_mono hquotient)
  exact ⟨q, hq, hq1, fun hdepth =>
    (value_nonneg_iff hq).mp (nonneg_of_rank hrank (div_nonneg (he0 hdepth) hs0.le))⟩

/-- Deeper nodes are further on the way to the tips. -/
theorem taperShare_mono (hage : 1 < age) (h : depth ≤ depth') (h' : depth' ≤ age) :
    taperShare depth age ≤ taperShare depth' age := by
  obtain ⟨s, hs, hs1⟩ := exists_value_span hage
  obtain ⟨e, he, -, -⟩ := exists_value_steps hs hs1 (UInt32.le_trans h h')
  obtain ⟨e', he', -, -⟩ := exists_value_steps hs hs1 h'
  obtain ⟨d, hd, -, -⟩ := exists_value_toFloat32 depth
  obtain ⟨d', hd', -, -⟩ := exists_value_toFloat32 depth'
  have hdd : d ≤ d' := (value_le_iff hd hd').mp (toFloat32_le h)
  have hee : e ≤ e' := (value_le_iff he he').mp
    (le_of_rank (rank_sub hd value_one) (rank_sub hd' value_one) (by linarith))
  have hs0 : 0 < s := by linarith
  exact le_of_rank (rank_div he hs hs0.ne') (rank_div he' hs hs0.ne')
    (div_le_div_of_nonneg_right hee hs0.le)

/-- The tips are at the end of the way. -/
theorem value_taperShare_self (hage : 1 < age) : (taperShare age age).value? = some 1 := by
  obtain ⟨s, hs, hs1⟩ := exists_value_span hage
  have hs0 : s ≠ 0 := by linarith
  refine value_of_rank (denotes_unpack value_one) ?_
  rw [taperShare, rank_div hs hs hs0, div_self hs0]

/-- From the trunk to the tips a stroke loses what the trunk has more than they. -/
theorem exists_value_excess {l : ℚ} (hl : (trunkWidth age).value? = some l) (hl1 : 1 ≤ l) :
    ∃ k, value? (1 - trunkWidth age) = some k ∧ |k| ≤ l ∧ k ≤ 0 := by
  have hrank := rank_sub value_one hl
  obtain ⟨k, hk, hkl⟩ :=
    exists_value_within hrank hl (nearest_mono (abs_le.mpr ⟨by linarith, by linarith⟩))
  exact ⟨k, hk, hkl, nonpos_of_rank hrank hk (by linarith)⟩

/-- On a part of the way it loses no more than the width of the trunk, and from depth one on it
gains nothing. -/
theorem exists_value_loss {l : ℚ} (hl : (trunkWidth age).value? = some l) (hl1 : 1 ≤ l)
    (hage : 1 < age) (h : depth ≤ age) :
    ∃ m, value? (taperShare depth age * (1 - trunkWidth age)) = some m ∧ |m| ≤ l ∧
      (1 ≤ depth → m ≤ 0) := by
  obtain ⟨q, hq, hq1, hq0⟩ := exists_value_taperShare hage h
  obtain ⟨k, hk, hkl, hk0⟩ := exists_value_excess hl hl1
  have hrank := rank_mul hq hk
  have hshare : |q * k| ≤ |k| := by
    rw [abs_mul]
    exact mul_le_of_le_one_left (abs_nonneg k) hq1
  obtain ⟨m, hm, hmk⟩ := exists_value_within hrank (value_abs hk) (nearest_mono hshare)
  exact ⟨m, hm, hmk.trans hkl, fun hdepth =>
    nonpos_of_rank hrank hm (mul_nonpos_of_nonneg_of_nonpos (hq0 hdepth) hk0)⟩

/-- No stroke is wider than twice the trunk of depth one, and none of depth one or more is wider
than that trunk. -/
theorem taper_bounds (hage : 1 ≤ age) (h : depth ≤ age) :
    0 ≤ taper depth age ∧ taper depth age ≤ trunkWidth age + trunkWidth age ∧
      (1 ≤ depth → taper depth age ≤ trunkWidth age) := by
  rcases UInt32.le_iff_lt_or_eq.mp hage with hlt | rfl
  · obtain ⟨l, hl, hl1⟩ := exists_value_trunkWidth age
    obtain ⟨m, hm, hml, hm0⟩ := exists_value_loss hl hl1 hlt h
    obtain ⟨hlow, hhigh⟩ := abs_le.mp hml
    have hrank := rank_add hl hm
    rw [taper_eq hlt]
    exact ⟨nonneg_of_rank hrank (by linarith), le_of_rank hrank (rank_add hl hl) (by linarith),
      fun hdepth => le_of_rank hrank (rank_eq_nearest hl) (by linarith [hm0 hdepth])⟩
  · rw [taper_age_one]
    exact ⟨by decide, by decide, fun _ => by decide⟩

/-- Deeper strokes are not wider. -/
theorem taper_antitone (hage : 1 ≤ age) (h : depth ≤ depth') (h' : depth' ≤ age) :
    taper depth' age ≤ taper depth age := by
  rcases UInt32.le_iff_lt_or_eq.mp hage with hlt | rfl
  · obtain ⟨l, hl, hl1⟩ := exists_value_trunkWidth age
    obtain ⟨k, hk, -, hk0⟩ := exists_value_excess hl hl1
    obtain ⟨q, hq, -, -⟩ := exists_value_taperShare hlt (UInt32.le_trans h h')
    obtain ⟨q', hq', -, -⟩ := exists_value_taperShare hlt h'
    obtain ⟨m, hm, -, -⟩ := exists_value_loss hl hl1 hlt (UInt32.le_trans h h')
    obtain ⟨m', hm', -, -⟩ := exists_value_loss hl hl1 hlt h'
    have hqq : q ≤ q' := (value_le_iff hq hq').mp (taperShare_mono hlt h h')
    -- the loss is a negative number, so the greater share has the lesser product
    have hmm : m' ≤ m := by
      refine value_le_of_nearest_le hm' hm ?_
      rw [← rank_eq_nearest hm', ← rank_eq_nearest hm, rank_mul hq' hk, rank_mul hq hk]
      exact nearest_mono (mul_le_mul_of_nonpos_right hqq hk0)
    rw [taper_eq hlt, taper_eq hlt]
    exact le_of_rank (rank_add hl hm') (rank_add hl hm) (by linarith)
  · rw [taper_age_one, taper_age_one]
    decide

/-- The tips have width one, as long as the excess of the trunk is not rounded. -/
theorem value_taper_self (hage : 1 < age) (hlimit : trunkWidth age ≤ 16777216) :
    (taper age age).value? = some 1 := by
  have hbound : value? 16777216 = some (2 ^ 24) := by decide +kernel
  obtain ⟨l, hl, hl1⟩ := exists_value_trunkWidth age
  have hexcess := value_one_sub hl hl1 ((value_le_iff hl hbound).mp hlimit)
  have hloss : value? (taperShare age age * (1 - trunkWidth age)) = some (1 - l) := by
    refine value_of_rank (denotes_unpack hexcess) ?_
    rw [rank_mul (value_taperShare_self hage) hexcess, one_mul]
  refine value_of_rank (denotes_unpack value_one) ?_
  rw [taper_eq hage, rank_add hl hloss, add_sub_cancel]

theorem one_le_taper (hage : 1 ≤ age) (h : depth ≤ age) (hlimit : trunkWidth age ≤ 16777216) :
    1 ≤ taper depth age := by
  rcases UInt32.le_iff_lt_or_eq.mp hage with hlt | rfl
  · have htips := value_taper_self hlt hlimit
    exact le_trans ((value_le_iff value_one htips).mpr le_rfl)
      (taper_antitone hage h (UInt32.le_refl age))
  · rw [taper_age_one]
    decide

/-- Beyond that width of the trunk the tips can be lost altogether. -/
example : taper 23967458 23967458 = 0 := by decide

end Taper

/-! ## Strokes of a frame -/

variable {σ : Type} [RandomSource σ]

/-- A segment is as wide as the depth of its branch says. -/
theorem Node.Grows.width_eq {m : Moment} {n : Node} {entry : Joint} {source source' : σ} {g : Grown}
    (h : n.Grows m entry source g source') {start finish : Vec} {width : Scalar} {colour : Rgba}
    {leaf : Option Dot} (hmark : g.mark = some (.segment start finish width colour leaf)) :
    g.node.branch?.isSome = true ∧ width = m.params.branchWidth * taper g.node.depth m.age := by
  cases h with
  | placeholder _ => cases hmark
  | budHidden _ _ _ => cases hmark
  | budShown _ _ => cases hmark
  | waiting _ _ => cases hmark
  | reached _ _ _ _ _ =>
    cases hmark
    exact ⟨rfl, rfl⟩

namespace Plant

variable {origin : Vec} {p p' : Plant} {time : Scalar} {noise : Noise} {marks : List Mark}
  {s t : Surroundings σ}

theorem Reachable.one_le_age (hp : Reachable origin p) : 1 ≤ p.age := by
  obtain ⟨ns, d, hnested⟩ := hp.exists_nested
  have hage := hnested.age_eq_max.2.1
  exact UInt32.le_iff_toNat_le.mpr (by rw [hage]; exact Nat.le_max_left 1 d)

/-- The segments of a frame belong to branches, and the taper of the branch gives the width. -/
theorem Reachable.exists_strokes (hp : Reachable origin p)
    (h : p.tick time noise s = .ok (p', marks) t) :
    ∃ drawn : Node → Option Mark, marks = p'.nodes.filterMap drawn ∧
      ∀ n ∈ p'.nodes, ∀ start finish width colour leaf,
        drawn n = some (.segment start finish width colour leaf) →
        n.branch?.isSome = true ∧ width = p'.params.branchWidth * taper n.depth p'.age := by
  obtain ⟨root, hroot⟩ := hp.sound.rooted
  obtain ⟨nodes, k, source, hgrow, rfl, -⟩ := tick_eq_ok h
  obtain ⟨results, rfl, rfl, hshown, hrooted⟩ := shown_of_growAll hgrow hroot
  refine ⟨markOf results, filterMap_markOf hrooted.distinct, ?_⟩
  intro n hn start finish width colour leaf hmark
  obtain ⟨old, e, x, source₁, source₂, -, -, hgrows⟩ := exists_grows hrooted.distinct hshown hn
  exact hgrows.width_eq hmark

/-- **Tapering strokes.** Deeper branches of a plant have no wider strokes. From depth one on no
stroke is wider than a trunk of depth one, and the trunk itself, which is drawn from depth zero on,
is at most twice as wide. No stroke is thinner than the tips as long as the trunk is not wider
than `2 ^ 24` of them. -/
theorem Reachable.stroke_widths (hp : Reachable origin p)
    (h : p.tick time noise s = .ok (p', marks) t) :
    (∃ drawn : Node → Option Mark, marks = p'.nodes.filterMap drawn ∧
      ∀ n ∈ p'.nodes, ∀ start finish width colour leaf,
        drawn n = some (.segment start finish width colour leaf) →
        n.branch?.isSome = true ∧ width = p'.params.branchWidth * taper n.depth p'.age ∧
        0 ≤ taper n.depth p'.age ∧
        taper n.depth p'.age ≤ trunkWidth p'.age + trunkWidth p'.age ∧
        (1 ≤ n.depth → taper n.depth p'.age ≤ trunkWidth p'.age) ∧
        (trunkWidth p'.age ≤ 16777216 → 1 ≤ taper n.depth p'.age)) ∧
    ∀ m ∈ p'.nodes, ∀ n ∈ p'.nodes, m.depth ≤ n.depth →
      taper n.depth p'.age ≤ taper m.depth p'.age := by
  have hp' : Reachable origin p' := hp.tick h
  have hage := hp'.one_le_age
  have hdepth := hp'.depth_le_age
  obtain ⟨drawn, hmarks, hdrawn⟩ := hp.exists_strokes h
  refine ⟨⟨drawn, hmarks, ?_⟩, fun m _ n hn hmn => taper_antitone hage hmn (hdepth n hn)⟩
  intro n hn start finish width colour leaf hmark
  obtain ⟨hbranch, hwidth⟩ := hdrawn n hn start finish width colour leaf hmark
  obtain ⟨hlow, hhigh, htrunk⟩ := taper_bounds hage (hdepth n hn)
  exact ⟨hbranch, hwidth, hlow, hhigh, htrunk, one_le_taper hage (hdepth n hn)⟩

/-- A plant with a trunk and two branches from the ground, of depths one and two, and its first
frame, which draws all three. -/
def trident : Garden Reel (Plant × Plant × List Mark) := do
  let p ← sprout 'X' (Rules.empty.insert 'X' (.fixed "[F][[F]]F")) {} ⟨0, 0⟩
  let (p, _) ← p.generate
  let (p', marks) ← p.tick 0 fun _ _ _ => .ok 0
  return (p, p', marks)

theorem exists_tick_of_trident {s t : Surroundings Reel} (h : trident s = .ok (p, p', marks) t) :
    Reachable ⟨0, 0⟩ p ∧ ∃ r, p.tick 0 (fun _ _ _ => .ok 0) r = .ok (p', marks) t := by
  simp only [trident, Outcome.bind_eq_ok, Outcome.pure_eq_ok, Prod.mk.injEq] at h
  obtain ⟨p₀, r₀, hsprout, ⟨p₁, tally⟩, r₁, hgenerate, ⟨p₂, marks₂⟩, r₂, htick, ⟨rfl, rfl, rfl⟩,
    rfl⟩ := h
  exact ⟨.generate (.sprout hsprout) hgenerate, r₁, htick⟩

/-- All three strokes of the trident are at least as wide as the tips. -/
theorem Reachable.stroke_widths_trident : ∃ p p' marks s t, Reachable ⟨0, 0⟩ p ∧
    p.tick 0 (fun _ _ _ => .ok 0) s = .ok (p', marks) (t : Surroundings Reel) ∧
    marks.length = 3 ∧ trunkWidth p'.age ≤ 16777216 ∧
    (∃ drawn : Node → Option Mark, marks = p'.nodes.filterMap drawn ∧
      ∀ n ∈ p'.nodes, ∀ start finish width colour leaf,
        drawn n = some (.segment start finish width colour leaf) →
        width = p'.params.branchWidth * taper n.depth p'.age ∧ 1 ≤ taper n.depth p'.age) ∧
    ∀ m ∈ p'.nodes, ∀ n ∈ p'.nodes, m.depth ≤ n.depth →
      taper n.depth p'.age ≤ taper m.depth p'.age := by
  have hok : Outcome.isOk (fun r => decide (r.2.1.age = 2) && decide (r.2.2.length = 3))
      (trident ⟨⟨#[0], 0⟩, #[]⟩) = true := by decide +kernel
  obtain ⟨⟨p, p', marks⟩, t, h, hrun⟩ := Outcome.exists_of_isOk hok
  obtain ⟨hage, hlength⟩ : p'.age = 2 ∧ marks.length = 3 := by simpa using hrun
  obtain ⟨hp, s, htick⟩ := exists_tick_of_trident h
  have hlimit : trunkWidth p'.age ≤ 16777216 := by
    rw [hage]
    decide
  obtain ⟨⟨drawn, hmarks, hdrawn⟩, hmono⟩ := hp.stroke_widths htick
  refine ⟨p, p', marks, s, t, hp, htick, hlength, hlimit, ⟨drawn, hmarks, ?_⟩, hmono⟩
  intro n hn start finish width colour leaf hmark
  obtain ⟨-, hwidth, -, -, -, htips⟩ := hdrawn n hn start finish width colour leaf hmark
  exact ⟨hwidth, htips hlimit⟩

/-- Whether a mark is a segment that is wider than a limit. -/
def widerThan (limit : Scalar) : Mark → Bool
  | .segment _ _ width _ _ => !decide (width ≤ limit)
  | .dot _ => false

/-- The trunk of the trident, at depth zero, is drawn wider than a trunk of depth one. -/
theorem trunk_exceeds_limit : ∃ p p' marks s t, Reachable ⟨0, 0⟩ p ∧
    p.tick 0 (fun _ _ _ => .ok 0) s = .ok (p', marks) (t : Surroundings Reel) ∧
    0 < p'.params.branchWidth ∧
    ∃ n ∈ p'.nodes, ∃ start finish width colour leaf,
      .segment start finish width colour leaf ∈ marks ∧
      width = p'.params.branchWidth * taper n.depth p'.age ∧
      ¬ taper n.depth p'.age ≤ maxNum (0.7 * p'.age.toFloat32) 1 := by
  have hok : Outcome.isOk (fun r => decide (r.2.1.age = 2) &&
      decide (0 < r.2.1.params.branchWidth) &&
      r.2.2.any (widerThan (r.2.1.params.branchWidth * trunkWidth 2)))
      (trident ⟨⟨#[0], 0⟩, #[]⟩) = true := by decide +kernel
  obtain ⟨⟨p, p', marks⟩, t, h, hrun⟩ := Outcome.exists_of_isOk hok
  obtain ⟨⟨hage, hpos⟩, mark, hmark, hwider⟩ : (p'.age = 2 ∧ 0 < p'.params.branchWidth) ∧
      ∃ mark ∈ marks, widerThan (p'.params.branchWidth * trunkWidth 2) mark = true := by
    simpa using hrun
  obtain ⟨hp, s, htick⟩ := exists_tick_of_trident h
  obtain ⟨drawn, hmarks, hdrawn⟩ := hp.exists_strokes htick
  cases mark with
  | dot d => cases hwider
  | segment start finish width colour leaf =>
    have hmem := hmark
    rw [hmarks] at hmem
    obtain ⟨n, hn, hdraws⟩ := List.mem_filterMap.mp hmem
    obtain ⟨-, hwidth⟩ := hdrawn n hn start finish width colour leaf hdraws
    refine ⟨p, p', marks, s, t, hp, htick, hpos, n, hn, start, finish, width, colour, leaf, hmark,
      hwidth, fun hle => ?_⟩
    -- a taper within the limit would have given a stroke within it
    have hp' := hp.tick htick
    have hone := one_le_taper hp'.one_le_age (hp'.depth_le_age n hn) (by rw [hage]; decide)
    have hpositive : 0 < taper n.depth p'.age := lt_of_lt_of_le (by decide) hone
    have hwithin := mul_le_mul_left hpos hpositive hle
    rw [← hwidth, hage] at hwithin
    simp only [widerThan, Bool.not_eq_true', decide_eq_false_iff_not] at hwider
    exact hwider hwithin

end Plant

end PlantGrowth
