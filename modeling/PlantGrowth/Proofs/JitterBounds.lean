import PlantGrowth.Proofs.Increments
import PlantGrowth.Proofs.Lengths

/-!
# Bounds of the length jitter

The length of a new branch is the length of the species times a sample of the jitter interval. A
sample of `[lo, hi)` is a word stretched over the interval, and the greatest one belongs to the
words whose upper bits are all set (`WordSource.topSample`). Rounding can take it to the upper end:
then no sample is above the end, but the interval is not half-open. It is half-open where the
greatest sample is below the end, because no other is greater (`WordSource.stretch_le_topSample`).

The length is rounded once more. So the branch that the turtle grows has a length between the two
ends times the length of the species, and a length below the upper one of them where that holds of
the greatest sample (`Turtle.branch_length_bounds`). An interval of which both fail is in
`Turtle.branch_length_reaches_end`.
-/

set_option autoImplicit false

namespace PlantGrowth

open Scalar Rounding

/-! ## The greatest sample -/

namespace WordSource

variable {lo hi : Scalar}

/-- The greatest sample of `[lo, hi)`. -/
def topSample (lo hi : Scalar) : Scalar := unit 0xffffffff * (hi - lo) + lo

theorem unit_le_top (word : UInt32) : unit word ≤ unit 0xffffffff := by
  have hbits := rank_ofBits_word word
  have hbits' := rank_ofBits_word 0xffffffff
  have hlast : ((0xffffffff : UInt32) >>> 9).toNat = 2 ^ 23 - 1 := by decide
  have hshift := shiftRight_lt word
  have htop : top = 255 * 2 ^ 23 := rfl
  unfold unit
  generalize Float32.ofBits ((0x3f800000 : UInt32) ||| (word >>> 9)) = x at *
  generalize Float32.ofBits ((0x3f800000 : UInt32) ||| ((0xffffffff : UInt32) >>> 9)) = y at *
  obtain ⟨p, hp⟩ := exists_value (isFinite_iff.mpr ⟨by omega, by omega⟩ : x.isFinite = true)
  obtain ⟨q, hq⟩ := exists_value (isFinite_iff.mpr ⟨by omega, by omega⟩ : y.isFinite = true)
  have hpq : p ≤ q := (value_le_iff hp hq).mp (le_iff.mpr ⟨by omega, by omega⟩)
  exact le_of_rank (rank_sub hp value_one) (rank_sub hq value_one) (by linarith)

theorem stretch_le_topSample (word : UInt32) (h : lo < hi) (hlo : lo.isFinite = true)
    (hhi : hi.isFinite = true) (hwidth : (hi - lo).isFinite = true) :
    unit word * (hi - lo) + lo ≤ topSample lo hi := by
  obtain ⟨u, hu, hu0, hu1⟩ := value_unit word
  obtain ⟨v, hv, hv0, hv1⟩ := value_unit 0xffffffff
  obtain ⟨l, hl⟩ := exists_value hlo
  obtain ⟨r, hr⟩ := exists_value hhi
  obtain ⟨w, hw⟩ := exists_value hwidth
  have hw0 : 0 ≤ w := width_nonneg hl hr hw h
  have huv := (value_le_iff hu hv).mp (unit_le_top word)
  obtain ⟨a, ha, -, hpart⟩ := exists_value_share hu hu0 (by linarith) hw hw0
  obtain ⟨b, hb, -, hpart'⟩ := exists_value_share hv hv0 (by linarith) hw hw0
  have hab : a ≤ b := by
    refine value_le_of_nearest_le ha hb ?_
    rw [hpart, hpart']
    exact nearest_mono (mul_le_mul_of_nonneg_right huv hw0)
  exact le_of_rank (rank_add ha hl) (rank_add hb hl) (by linarith)

/-- An interval of positive numbers of finite width has finite ends. -/
theorem ends_finite (hpos : 0 < lo) (h : lo < hi) (hwidth : (hi - lo).isFinite = true) :
    lo.isFinite = true ∧ hi.isFinite = true := by
  have hlo0 := pos_iff.mp hpos
  have hlt := lt_iff.mp h
  have htop := top_pos
  have hlo : lo.isFinite = true := isFinite_iff.mpr ⟨by omega, by omega⟩
  refine ⟨hlo, ?_⟩
  rcases value_or_infinite (nonneg_iff.mpr ⟨by omega, hlt.2⟩) with ⟨q, -, hq⟩ | hinf
  · exact isFinite_of_value hq
  · rw [isFinite_iff, (rank_sub_infinite hinf hlo).1] at hwidth
    exact absurd hwidth.2 (Int.lt_irrefl _)

variable {σ : Type} [WordSource σ]

/-- A positive interval of finite width is sampled within its ends, and below the upper one where
the greatest sample is. -/
theorem range_bounds (hpos : 0 < lo) (h : lo < hi) (hwidth : (hi - lo).isFinite = true)
    (source : σ) : ∃ x source', RandomSource.range lo hi source = .ok (x, source') ∧
      lo ≤ x ∧ x ≤ hi ∧ x ≤ topSample lo hi := by
  obtain ⟨hlo, hhi⟩ := ends_finite hpos h hwidth
  have hfinite : (lo.isFinite && hi.isFinite && (hi - lo).isFinite) = true := by
    rw [hlo, hhi, hwidth]
    rfl
  refine ⟨_, (next source).2, ?_, le_stretch (next source).1 h hlo hhi hwidth,
    stretch_le (next source).1 h hlo hhi hwidth, stretch_le_topSample _ h hlo hhi hwidth⟩
  show range lo hi source = _
  rw [range, if_pos h, if_pos hfinite]

end WordSource

/-! ## Lengths of new branches -/

namespace Turtle

variable {σ : Type} [WordSource σ] {params : GrowthParams}

/-- The letter of a branch grows one, of the length of the species times a sample. -/
theorem exists_branch_of_read {letter : Letter} {stack stack' : Stack} {s t : Nursery σ}
    {node? : Option Node} (haction : letter.action = .branch)
    (h : read params letter stack s = .ok (node?, stack') t) :
    ∃ (node : Node) (b : Branch) (factor : Scalar) (source source' : σ), node? = some node ∧
      node.kind = .branch b ∧ b.finalLength = params.length * factor ∧
      RandomSource.range params.lengthJitter.1 params.lengthJitter.2 source =
        .ok (factor, source') := by
  cases step_of_read h with
  | turnLeft hother => rw [haction] at hother; cases hother
  | turnRight hother => rw [haction] at hother; cases hother
  | save hother => rw [haction] at hother; cases hother
  | restore hother => rw [haction] at hother; cases hother
  | @grow node _ _ _ hgrew =>
    have hshape := hgrew.shape_eq
    rw [haction] at hshape
    obtain ⟨factor, source, source', leaf, hfactor, hkind⟩ := shape_branch_eq_ok hshape
    exact ⟨node, _, factor, source, source', rfl, hkind, rfl, hfactor⟩

/-- A sample of the jitter interval is in `[lo, hi)`, and the length of a new branch in the interval
of the products, unless rounding takes the greatest sample to the upper end. -/
theorem branch_length_bounds (hlength : 0 < params.length) (hpos : 0 < params.lengthJitter.1)
    (hlt : params.lengthJitter.1 < params.lengthJitter.2)
    (hwidth : (params.lengthJitter.2 - params.lengthJitter.1).isFinite = true) :
    (∀ source : σ, ∃ x source',
      RandomSource.range params.lengthJitter.1 params.lengthJitter.2 source = .ok (x, source') ∧
      params.lengthJitter.1 ≤ x ∧ x ≤ params.lengthJitter.2 ∧
      (WordSource.topSample params.lengthJitter.1 params.lengthJitter.2 < params.lengthJitter.2 →
        x < params.lengthJitter.2)) ∧
    ∀ (letter : Letter) (stack stack' : Stack) (s t : Nursery σ) (node? : Option Node),
      letter.action = .branch → read params letter stack s = .ok (node?, stack') t →
      ∃ node b, node? = some node ∧ node.kind = .branch b ∧
        params.length * params.lengthJitter.1 ≤ b.finalLength ∧
        b.finalLength ≤ params.length * params.lengthJitter.2 ∧
        (params.length * WordSource.topSample params.lengthJitter.1 params.lengthJitter.2 <
            params.length * params.lengthJitter.2 →
          b.finalLength < params.length * params.lengthJitter.2) := by
  have hrange := WordSource.range_bounds (σ := σ) hpos hlt hwidth
  constructor
  · intro source
    obtain ⟨x, source', hx, hlow, hhigh, htop⟩ := hrange source
    exact ⟨x, source', hx, hlow, hhigh, fun hbelow => lt_of_le_of_lt htop hbelow⟩
  · intro letter stack stack' s t node? haction hread
    obtain ⟨node, b, factor, source, source', hnode, hkind, hfinal, hfactor⟩ :=
      exists_branch_of_read haction hread
    obtain ⟨x, source'', hx, hlow, hhigh, htop⟩ := hrange source
    rw [hfactor] at hx
    cases hx
    -- the products keep the order of the factors
    have hfactor0 : 0 < factor := lt_of_lt_of_le hpos hlow
    refine ⟨node, b, hnode, hkind, ?_, ?_, fun hbelow => ?_⟩ <;> rw [hfinal]
    · exact mul_le_mul_left hlength hpos hlow
    · exact mul_le_mul_left hlength hfactor0 hhigh
    · exact lt_of_le_of_lt (mul_le_mul_left hlength hfactor0 htop) hbelow

/-- The first joint of a plant and a source of words whose bits are all set. -/
def highDraws : Nursery Reel where
  site := ⟨⟨#[.root .zero]⟩, ⟨#[0xffffffff], 0⟩⟩
  age := 1
  nextId := 0

/-- The letter of a branch, for which there is no rule. -/
def branchLetter : Letter := ⟨'F', .branch, false⟩

/-- Between a half and one the greatest sample is below one, and so is every length. -/
theorem branch_length_bounds_half :
    let params : GrowthParams := { lengthJitter := (1 / 2, 1) }
    0 < params.length ∧ ((1 : Scalar) - 1 / 2).isFinite = true ∧
    ∃ node stack t, read params branchLetter (.ofFrame ⟨⟨0⟩, 0, 0⟩) highDraws =
        .ok (some node, stack) t ∧
      ∃ b, node.kind = .branch b ∧ params.length * (1 / 2) ≤ b.finalLength ∧
        b.finalLength < params.length * 1 := by
  intro params
  have hlength : 0 < params.length := by decide
  have hpos : (0 : Scalar) < params.lengthJitter.1 := by decide
  have hlt : params.lengthJitter.1 < params.lengthJitter.2 := by decide
  have hwidth : (params.lengthJitter.2 - params.lengthJitter.1).isFinite = true := by
    decide
  have hok : Outcome.isOk (fun r => r.1.isSome)
      (read params branchLetter (.ofFrame ⟨⟨0⟩, 0, 0⟩) highDraws) = true := by decide
  obtain ⟨⟨node?, stack⟩, t, hread, -⟩ := Outcome.exists_of_isOk hok
  obtain ⟨node, b, rfl, hkind, hlow, -, htop⟩ :=
    (branch_length_bounds hlength hpos hlt hwidth).2 _ _ _ _ _ _ rfl hread
  exact ⟨hlength, hwidth, node, stack, t, hread, b, hkind, hlow, htop (by decide)⟩

/-- Between one and the next scalar the greatest sample is the upper end, and a branch gets it. -/
theorem branch_length_reaches_end :
    let hi : Scalar := .ofBits 0x3f800001
    let params : GrowthParams := { length := 1, lengthJitter := (1, hi) }
    (1 : Scalar) < hi ∧ (hi - 1).isFinite = true ∧ (params.length * hi).isFinite = true ∧
    (∃ source', RandomSource.range 1 hi highDraws.site.source = .ok (hi, source')) ∧
    ∃ node stack t, read params branchLetter (.ofFrame ⟨⟨0⟩, 0, 0⟩) highDraws =
        .ok (some node, stack) t ∧
      ∃ b, node.kind = .branch b ∧ ¬ b.finalLength < params.length * hi := by
  intro hi params
  have hlt : (1 : Scalar) < hi := by decide
  have hwidth : (hi - 1).isFinite = true := by decide
  obtain ⟨x, source', hrange, -⟩ :=
    WordSource.range_bounds (by decide) hlt hwidth highDraws.site.source
  have hsample : (RandomSource.range 1 hi highDraws.site.source).toOption.map Prod.fst =
      some hi := by decide
  rw [hrange] at hsample
  obtain rfl : x = hi := Option.some.inj hsample
  have hok : Outcome.isOk
      (fun r => (r.1.bind Node.branch?).any fun b => !(b.finalLength < params.length * hi))
      (read params branchLetter (.ofFrame ⟨⟨0⟩, 0, 0⟩) highDraws) = true := by decide
  obtain ⟨⟨node?, stack⟩, t, hread, hend⟩ := Outcome.exists_of_isOk hok
  obtain ⟨node, b, _, _, _, rfl, hkind, -⟩ := exists_branch_of_read rfl hread
  have hbranch : node.branch? = some b := by
    rw [Node.branch?, hkind]
  rw [Option.bind_some, hbranch, Option.any_some] at hend
  rw [Bool.not_eq_true', decide_eq_false_iff_not] at hend
  exact ⟨hlt, hwidth, by decide, ⟨source', hrange⟩, node, stack, t, hread, b, hkind, hend⟩

end Turtle

end PlantGrowth
