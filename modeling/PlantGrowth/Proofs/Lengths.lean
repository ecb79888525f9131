import PlantGrowth.Proofs.Kinds
import PlantGrowth.Proofs.Memoryless
import PlantGrowth.Proofs.Sampling

/-!
# Lengths of branches

A branch can be used if its final length is positive and its current length is between zero and
that (`Branch.Usable`). Growth keeps it so, whatever the increments (`Branch.Usable.grow`). A new
branch is usable if its final length is positive, and this is the length of the species, offset by
the variation, times a factor from the jitter range. So the branches of a raised plant can be used
for all their life as long as the least such product is positive (`Species.raise_usable`).
-/

set_option autoImplicit false

namespace PlantGrowth

open Scalar Rounding

/-! ## Growth of a branch -/

/-- A branch with a positive final length that it has not outgrown. -/
structure Branch.Usable (b : Branch) : Prop where
  pos : 0 < b.finalLength
  nonneg : 0 ≤ b.currentLength
  le : b.currentLength ≤ b.finalLength

namespace Branch

theorem usable_sprout {finalLength : Scalar} (h : 0 < finalLength) (colour leaf : Rgba) :
    (sprout finalLength colour leaf).Usable where
  pos := h
  nonneg := le_self (by decide)
  le := nonneg_of_pos h

/-- No increment makes a branch shrink below zero or grow past its final length. -/
theorem grow_bounds {b : Branch} (hnonneg : 0 ≤ b.currentLength)
    (hle : b.currentLength ≤ b.finalLength) (increment : Scalar) :
    0 ≤ (b.grow increment).currentLength ∧
      (b.grow increment).currentLength ≤ (b.grow increment).finalLength := by
  by_cases hgrown : b.isGrown = true
  · rw [grow_grown hgrown]
    exact ⟨hnonneg, hle⟩
  · have hlonger := Scalar.add_nonneg hnonneg (nonneg_maxNum_zero increment)
    have hfinal := Scalar.le_trans hnonneg hle
    have hnumber := (nonneg_iff.mp hlonger).2
    have hnan : ¬ (b.currentLength + maxNum increment 0).isNaN = true := by
      rw [isNaN_iff]
      omega
    have hgrow : b.grow increment =
        { b with currentLength := minNum (b.currentLength + maxNum increment 0) b.finalLength } :=
      if_neg hgrown
    rw [hgrow]
    unfold minNum
    rw [if_neg hnan]
    split
    · exact ⟨hfinal, le_self (nonneg_iff.mp hfinal).2⟩
    · rename_i hle
      exact ⟨hlonger, le_of_not_lt (nonneg_iff.mp hfinal).2 hnumber hle⟩

/-- Growth keeps a branch usable: its length stays between nothing and the final one. -/
theorem Usable.grow {b : Branch} (h : b.Usable) (increment : Scalar) :
    (b.grow increment).Usable := by
  obtain ⟨hnonneg, hle⟩ := grow_bounds h.nonneg h.le increment
  refine ⟨?_, hnonneg, hle⟩
  rw [finalLength_grow]
  exact h.pos

end Branch

/-! ## Branches that are sprouted -/

/-- Branch nodes of a kind can be used. -/
def Kind.Usable (kind : Kind) : Prop := ∀ b, kind = .branch b → b.Usable

section Sprouts

variable {σ : Type} [RandomSource σ] {params : GrowthParams}

/-- A branch is sprouted with a factor of the jitter range. -/
theorem Turtle.shape_branch_eq_ok {age : UInt32} {frame : Frame} {source source' : σ}
    {rotation : Scalar} {kind : Kind}
    (h : shape params age frame .branch source = .ok ((rotation, kind), source')) :
    ∃ (factor : Scalar) (source₁ source₂ : σ) (leaf : Rgba),
      RandomSource.range params.lengthJitter.1 params.lengthJitter.2 source₁ =
        .ok (factor, source₂) ∧
      kind = .branch (.sprout (params.length * factor) params.palette.branchColour leaf) := by
  simp only [shape, sproutBranch, Outcome.except_bind_eq_ok, Outcome.except_pure_eq_ok,
    Prod.mk.injEq] at h
  obtain ⟨⟨⟨rotation', b'⟩, source₁⟩, ⟨⟨turn, source₂⟩, -, ⟨factor, source₃⟩, hfactor,
    ⟨leaf, source₄⟩, -, ⟨-, rfl⟩, -⟩, ⟨-, rfl⟩, -⟩ := h
  exact ⟨factor, source₂, source₃, leaf, hfactor, rfl⟩

/-- What holds of all branches that are sprouted with a factor of the jitter range holds of all
branches that the turtle grows. -/
theorem Turtle.yields_of_sprout {Q : Branch → Prop}
    (hQ : ∀ {factor : Scalar} {source source' : σ} (colour leaf : Rgba),
      RandomSource.range params.lengthJitter.1 params.lengthJitter.2 source =
        .ok (factor, source') → Q (.sprout (params.length * factor) colour leaf)) :
    Turtle.Yields σ params fun kind => ∀ b, kind = .branch b → Q b where
  placeholder := by
    intro b hb
    cases hb
  shape := by
    intro age frame action source source' rotation kind h b hb
    subst hb
    cases action with
    | branch =>
      obtain ⟨factor, source₁, source₂, leaf, hfactor, hkind⟩ := shape_branch_eq_ok h
      cases hkind
      exact hQ _ leaf hfactor
    | bud =>
      simp only [shape, Outcome.except_bind_eq_ok, Outcome.except_pure_eq_ok, Prod.mk.injEq,
        reduceCtorEq, and_false, false_and, exists_false] at h
    | turnLeft => cases h
    | turnRight => cases h
    | save => cases h
    | restore => cases h
    | placeholder => cases h

/-- The turtle grows usable branches only, if lengths and their jitter are positive. -/
theorem Turtle.yields_usable [RandomSource.Bounded σ] (hjitter : 0 < params.lengthJitter.1)
    (hrange : params.lengthJitter.1 ≤ params.lengthJitter.2)
    (hpos : 0 < params.length * params.lengthJitter.1) :
    Turtle.Yields σ params Kind.Usable := by
  refine yields_of_sprout fun colour leaf hfactor => ?_
  apply Branch.usable_sprout
  -- the factor is not below the lower end of its range, nor the product below that with it
  have hle := mul_le_mul_left (pos_of_mul_pos hjitter hpos) hjitter
    (RandomSource.Bounded.le_range hrange hfactor)
  obtain ⟨hlow, -⟩ := pos_iff.mp hpos
  obtain ⟨hup, htop⟩ := le_iff.mp hle
  exact pos_iff.mpr ⟨hlow.trans_le hup, htop⟩

end Sprouts

/-! ## Frames -/

/-- A branch comes out of a frame as it was, or extended by an increment. -/
theorem Branch.advance_eq_ok {σ : Type} [RandomSource σ] {m : Moment} {entry : Joint}
    {before b : Branch} {source source' : σ}
    (h : before.advance m entry source = .ok (b, source')) :
    b = before ∨ ∃ increment, b = before.grow increment := by
  unfold advance at h
  split at h
  · simp only [Outcome.except_bind_eq_ok, Outcome.except_pure_eq_ok, Prod.mk.injEq] at h
    obtain ⟨⟨factor, source₁⟩, -, rfl, -⟩ := h
    exact Or.inr ⟨_, rfl⟩
  · cases h
    exact Or.inl rfl

section Branches

variable {σ : Type} [RandomSource σ] {Q : Branch → Prop}

theorem Node.Grows.forall_branch (hgrow : ∀ {b : Branch}, Q b → ∀ increment, Q (b.grow increment))
    {m : Moment} {n : Node} {entry : Joint} {source source' : σ} {g : Grown}
    (h : n.Grows m entry source g source') (hn : ∀ b, n.kind = .branch b → Q b) :
    ∀ b, g.node.kind = .branch b → Q b := by
  cases h with
  | placeholder _ => exact hn
  | budHidden _ _ _ => exact hn
  | budShown _ _ => exact hn
  | waiting _ _ => exact hn
  | @reached before after _ _ _ hkind _ hadvance _ _ =>
    have hbefore := hn before hkind
    intro b hb
    cases hb
    rcases Branch.advance_eq_ok hadvance with rfl | ⟨increment, rfl⟩
    · exact hbefore
    · exact hgrow hbefore increment

/-- What growth keeps of a branch, a frame keeps of all branches. -/
theorem OnSite.forall_branch_of_mapM
    (hgrow : ∀ {b : Branch}, Q b → ∀ increment, Q (b.grow increment)) {m : Moment}
    {row : List Node} {results : List (Node × Option Mark)} {s t : Site σ}
    (h : (row.mapM (growNode m)) s = .ok results t)
    (hrow : ∀ n ∈ row, ∀ b, n.kind = .branch b → Q b) :
    ∀ r ∈ results, ∀ b, r.1.kind = .branch b → Q b := by
  intro r hr
  obtain ⟨n, hn, e, x, source, source', hgrows⟩ := exists_of_forall₂ (grows_of_mapM h) hr
  exact hgrows.forall_branch hgrow (hrow n hn)

namespace Plant

/-- A frame keeps what increments keep of the branches of a plant. -/
theorem forall_branch_of_tick
    (hgrow : ∀ {b : Branch}, Q b → ∀ increment, Q (b.grow increment)) {p q : Plant}
    {time : Scalar} {noise : Noise} {marks : List Mark} {s t : Surroundings σ}
    (hp : ∀ n ∈ p.nodes, ∀ b, n.kind = .branch b → Q b)
    (h : p.tick time noise s = .ok (q, marks) t) :
    ∀ n ∈ q.nodes, ∀ b, n.kind = .branch b → Q b := by
  obtain ⟨nodes, k, source, hframe, rfl, -⟩ := tick_eq_ok h
  obtain ⟨results, hresults, rfl, -⟩ := OnSite.growAll_eq_ok hframe
  have hafter := OnSite.forall_branch_of_mapM hgrow hresults hp
  intro n hn
  obtain ⟨r, hr, rfl⟩ := List.mem_map.mp hn
  exact hafter r hr

/-- Frames keep the branches usable. -/
theorem Ticked.usable {p q : Plant} (h : Ticked p q) (hp : ∀ n ∈ p.nodes, n.kind.Usable) :
    ∀ n ∈ q.nodes, n.kind.Usable := by
  induction h with
  | refl => exact hp
  | tick _ htick ih => exact forall_branch_of_tick Branch.Usable.grow ih htick

theorem usable_of_mem_branches {p : Plant} (hp : ∀ n ∈ p.nodes, n.kind.Usable) {b : Branch}
    (hb : b ∈ p.branches) : b.Usable := by
  obtain ⟨n, hn, hbranch⟩ := List.mem_filterMap.mp hb
  exact hp n hn b (Node.kind_of_branch?_some hbranch)

end Plant

end Branches

/-! ## Raised plants -/

namespace Species

/-- The branches of a raised plant can be used, from the start and after any frames, where the
least length that the variation and the jitter leave them is positive. -/
theorem raise_usable {σ : Type} [RandomSource σ] [RandomSource.Bounded σ] {s : Species}
    {settings : Settings} {origin : Vec} {v : Variation} {t t' : Surroundings σ} {p q : Plant}
    (h : s.raise settings origin v t = .ok (.ok p) t')
    (hpos : 0 < (s.length + v.length) * settings.lengthJitter.1) (hticked : p.Ticked q) :
    ∀ b ∈ q.branches, b.Usable := by
  obtain ⟨-, hsettings, -⟩ := raise_eq_ok h
  obtain ⟨hjitter, hrange⟩ := hsettings.lengthJitter
  have hyields : Turtle.Yields σ (s.params settings v) Kind.Usable :=
    Turtle.yields_usable hjitter hrange hpos
  have hkinds := kinds_of_raise hyields h
  intro b hb
  exact Plant.usable_of_mem_branches (hticked.usable hkinds) hb

/-- Species whose plants are one branch. -/
def twig : Species where
  name := "twig"
  seed := 'F'
  rules := .empty
  iterations := 1

/-- A twig raised in still air, and the same twig after one frame. -/
def grownTwig : Garden Reel (Option (Plant × Plant)) := do
  match ← twig.raise { flowField := none } ⟨0, 0⟩ {} with
  | .ok p =>
    let (q, _) ← p.tick 0 fun _ _ _ => .ok 0
    return some (p, q)
  | .error _ => return none

/-- The branch of the twig can be used after a frame in which it has grown. -/
theorem raise_usable_twig : ∃ p t q t', twig.raise { flowField := none } ⟨0, 0⟩ {}
      ⟨(⟨#[0], 0⟩ : Reel), #[]⟩ = .ok (.ok p) t ∧
    grownTwig ⟨⟨#[0], 0⟩, #[]⟩ = .ok (some (p, q)) t' ∧
    (∃ b ∈ q.branches, 0 < b.currentLength) ∧ ∀ b ∈ q.branches, b.Usable := by
  have hok : Outcome.isOk (fun r => match r with
      | some (_, q) => q.branches.any fun b => 0 < b.currentLength
      | none => false) (grownTwig ⟨⟨#[0], 0⟩, #[]⟩) = true := by
    decide +kernel
  obtain ⟨r, t', h, hgrown⟩ := Outcome.exists_of_isOk hok
  have hrun := h
  simp only [grownTwig, Outcome.bind_eq_ok] at hrun
  obtain ⟨raised, t, hraise, hrun⟩ := hrun
  cases raised with
  | error e =>
    obtain ⟨rfl, -⟩ := Outcome.pure_eq_ok.mp hrun
    cases hgrown
  | ok p =>
    simp only [Outcome.bind_eq_ok, Outcome.pure_eq_ok] at hrun
    obtain ⟨⟨q, marks⟩, t₁, htick, rfl, rfl⟩ := hrun
    have hpos : 0 < (twig.length + ({} : Variation).length) *
        ({ flowField := none } : Settings).lengthJitter.1 := by decide +kernel
    refine ⟨p, t, q, t₁, hraise, h, ?_, raise_usable hraise hpos (.tick .refl htick)⟩
    simpa using hgrown

/-- The checks accept a twig with a variation that takes away more than its length. Its branch has
a negative final length, which its current length exceeds. -/
theorem raise_stunted : ∃ p t, twig.raise { lengthJitter := (1, 1) } ⟨0, 0⟩ { length := -10 }
      ⟨(⟨#[0], 0⟩ : Reel), #[]⟩ = .ok (.ok p) t ∧
    ∃ b ∈ p.branches, ¬ 0 < b.finalLength ∧ ¬ b.currentLength ≤ b.finalLength := by
  have hok : Outcome.isOk (fun r : Except ConfigError Plant => match r with
      | .ok p => p.branches.any fun b => !(0 < b.finalLength) && !(b.currentLength ≤ b.finalLength)
      | .error _ => false) (twig.raise { lengthJitter := (1, 1) } ⟨0, 0⟩ { length := -10 }
        ⟨(⟨#[0], 0⟩ : Reel), #[]⟩) = true := by
    decide +kernel
  obtain ⟨raised, t, h, hbranch⟩ := Outcome.exists_of_isOk hok
  cases raised with
  | error e => cases hbranch
  | ok p =>
    refine ⟨p, t, h, ?_⟩
    simpa using hbranch

end Species

end PlantGrowth
