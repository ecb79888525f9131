import PlantGrowth.Proofs.Increments
import PlantGrowth.Proofs.Lengths
import PlantGrowth.Proofs.Tips
import PlantGrowth.Proofs.Failures

/-!
# Progress of growth

Every frame of a plant that is not fully grown makes a branch longer, unless the increments are
lost: a product of small factors may be rounded to zero, and a small increment may vanish beside a
great length. `GrowthParams.Gains` says that the least increment is lost in no length that a branch
has before it is done, and `GrowthParams.gains_of_gap` that this is so if the increment is no
smaller than the distance between numbers at the greatest length.

`Plant.slack` is the measure: how many numbers lie between the current lengths of all branches and
their final lengths. Frames do not raise it, and a frame with a tip lowers it
(`Plant.Lengthens.slack_lt`), so after as many frames the plant is fully grown
(`Species.raise_progress`). That every frame gives a result is `Plant.Reachable.exists_tick`.
-/

set_option autoImplicit false

namespace PlantGrowth

open Scalar Rounding

/-! ## Increments that are not lost -/

namespace GrowthParams

/-- Least increment of a branch in a frame. -/
def leastIncrement (params : GrowthParams) : Scalar := params.growthSpeed * params.growthJitter.1

/-- Greatest final length of a branch. -/
def longest (params : GrowthParams) : Scalar := params.length * params.lengthJitter.2

/-- The least increment makes every length greater that is below the longest one. -/
def Gains (params : GrowthParams) : Prop :=
  ∀ x, 0 ≤ x → x < params.longest → x < x + params.leastIncrement

/-- Increments are not lost if they are no smaller than the unit of the longest length. -/
theorem gains_of_gap {params : GrowthParams} {m e : ℤ} {q : ℚ} (hm : IsMantissa m e)
    (hlongest : params.longest.value? = some ((m : ℚ) * 2 ^ e))
    (hleast : params.leastIncrement.value? = some q) (hgap : 2 ^ e ≤ q) : params.Gains := by
  intro x hx hlt
  exact lt_add_of_gap_le_of_lt hlongest hm hleast hgap hx hlt

end GrowthParams

/-! ## Growth of a branch -/

namespace Branch

/-- A branch that is not longer than it may get, and may not get longer than `longest`. -/
structure Within (longest : Scalar) (b : Branch) : Prop where
  nonneg : 0 ≤ b.currentLength
  le : b.currentLength ≤ b.finalLength
  final_le : b.finalLength ≤ longest

variable {params : GrowthParams} {longest factor : Scalar} {b : Branch}

theorem Within.grow (h : b.Within longest) (increment : Scalar) :
    (b.grow increment).Within longest := by
  obtain ⟨hnonneg, hle⟩ := grow_bounds h.nonneg h.le increment
  refine ⟨hnonneg, hle, ?_⟩
  rw [finalLength_grow]
  exact h.final_le

theorem lt_of_not_grown (h : b.Within longest) (hb : b.isGrown = false) :
    b.currentLength < b.finalLength := by
  have hnot : ¬ b.finalLength ≤ b.currentLength := of_decide_eq_false hb
  have hle := le_iff.mp h.le
  rw [le_iff, not_and_or] at hnot
  rw [lt_iff]
  omega

/-- Growing makes no branch shorter. -/
theorem le_grow (hnonneg : 0 ≤ b.currentLength) (hle : b.currentLength ≤ b.finalLength)
    (increment : Scalar) : b.currentLength ≤ (b.grow increment).currentLength := by
  unfold Branch.grow
  split
  · exact le_self (nonneg_iff.mp hnonneg).2
  · show b.currentLength ≤ minNum (b.currentLength + maxNum increment 0) b.finalLength
    unfold minNum
    split
    · exact hle
    · split
      · exact hle
      · exact le_add_of_nonneg hnonneg (nonneg_maxNum_zero increment)

/-- A branch that is not grown gets longer by every increment that the jitter range allows. -/
theorem lt_grow (hgains : params.Gains) (hlo : 0 < params.growthJitter.1)
    (hfactor : params.growthJitter.1 ≤ factor) (h : b.Within params.longest)
    (hb : b.isGrown = false) :
    b.currentLength < (b.grow (params.growthSpeed * factor)).currentLength := by
  have hlt := lt_of_not_grown h hb
  have hgain := hgains _ h.nonneg (lt_of_lt_of_le hlt h.final_le)
  -- an increment that counts comes of a positive speed, and a greater factor gives no smaller one
  have hleast : 0 < params.leastIncrement := pos_of_lt_add h.nonneg hgain
  have hle : params.leastIncrement ≤ params.growthSpeed * factor :=
    mul_le_mul_left (pos_of_mul_pos hlo hleast) hlo hfactor
  have hlonger : b.currentLength < b.currentLength + params.growthSpeed * factor :=
    lt_of_lt_of_le hgain (add_le_add_left h.nonneg (nonneg_of_pos hleast) hle)
  have hgrow : (b.grow (params.growthSpeed * factor)).currentLength =
      minNum (b.currentLength + params.growthSpeed * factor) b.finalLength := by
    rw [Branch.grow, hb, if_neg Bool.false_ne_true,
      maxNum_zero_of_nonneg (Scalar.le_trans (nonneg_of_pos hleast) hle)]
  rw [hgrow]
  unfold minNum
  split
  · exact hlt
  · split
    · exact hlt
    · exact hlonger

end Branch

theorem Turtle.yields_within {σ : Type} [RandomSource σ] [RandomSource.Bounded σ]
    [RandomSource.BoundedAbove σ] {params : GrowthParams} (hlength : 0 < params.length)
    (hjitter : 0 < params.lengthJitter.1)
    (hrange : params.lengthJitter.1 ≤ params.lengthJitter.2) :
    Turtle.Yields σ params fun kind => ∀ b, kind = .branch b → b.Within params.longest := by
  refine yields_of_sprout fun colour leaf hfactor => ?_
  have hpos := lt_of_lt_of_le hjitter (RandomSource.Bounded.le_range hrange hfactor)
  refine ⟨le_self (by decide), mul_nonneg hlength hpos, ?_⟩
  exact mul_le_mul_left hlength hpos (RandomSource.BoundedAbove.range_le hrange hfactor)

/-! ## Growth of a plant -/

namespace Plant

/-- The branches of two plants, in pairs: none is shorter in the second plant, and one is longer. -/
def Lengthens (p q : Plant) : Prop :=
  ∃ pairs : List (Branch × Branch), pairs.map Prod.fst = p.branches ∧
    pairs.map Prod.snd = q.branches ∧
    (∀ x ∈ pairs, x.2.finalLength = x.1.finalLength ∧ x.1.currentLength ≤ x.2.currentLength) ∧
    ∃ x ∈ pairs, x.1.currentLength < x.2.currentLength

/-- How many numbers the branches have before them until they are done. -/
def slack (p : Plant) : ℕ :=
  (p.branches.map fun b => (b.finalLength.rank - b.currentLength.rank).toNat).sum

/-- No branch of the plant is longer than it may get. -/
def Bounded (p : Plant) : Prop :=
  ∀ n ∈ p.nodes, ∀ b, n.kind = .branch b → b.Within p.params.longest

theorem Bounded.within {p : Plant} (hp : p.Bounded) {b : Branch} (hb : b ∈ p.branches) :
    b.Within p.params.longest := by
  obtain ⟨n, hn, hbranch⟩ := List.mem_filterMap.mp hb
  exact hp n hn b (Node.kind_of_branch?_some hbranch)

theorem Lengthens.slack_lt {p q : Plant} (h : p.Lengthens q) (hq : q.Bounded) :
    q.slack < p.slack := by
  obtain ⟨pairs, hp, hq', hle, x, hx, hlt⟩ := h
  have hwithin : ∀ x ∈ pairs, x.2.currentLength.rank ≤ x.2.finalLength.rank := by
    intro x hx
    have hmem : x.2 ∈ q.branches := hq' ▸ List.mem_map_of_mem hx
    exact (le_iff.mp (hq.within hmem).le).1
  rw [slack, slack, ← hp, ← hq', List.map_map, List.map_map]
  refine List.sum_lt_sum _ _ ?_ ⟨x, hx, ?_⟩
  · intro y hy
    obtain ⟨hfinal, hcurrent⟩ := hle y hy
    have hrank := (le_iff.mp hcurrent).1
    simp only [Function.comp_apply, hfinal]
    omega
  · have hrank := (lt_iff.mp hlt).1
    have hbound := hwithin x hx
    rw [(hle x hx).1] at hbound
    simp only [Function.comp_apply, (hle x hx).1]
    omega

end Plant

/-- The branches of a row before and after a frame: increments make none of them shorter, and the
tips longer. -/
theorem Row.Fed.pairs {σ : Type} [RandomSource σ] [RandomSource.Bounded σ] {params : GrowthParams}
    {tip : Node → Bool} {row row' : List Node} {source source' : σ}
    (h : Fed params tip row source row' source') (hgains : params.Gains)
    (hjitter : 0 < params.growthJitter.1 ∧ params.growthJitter.1 ≤ params.growthJitter.2)
    (htips : List.Forall₂ (fun old new => tip new = true → old.IsGrowing) row row')
    (hrow : ∀ n ∈ row, ∀ b, n.kind = .branch b → b.Within params.longest) :
    ∃ pairs : List (Branch × Branch), pairs.map Prod.fst = row.filterMap Node.branch? ∧
      pairs.map Prod.snd = row'.filterMap Node.branch? ∧
      (∀ x ∈ pairs, x.2.finalLength = x.1.finalLength ∧ x.1.currentLength ≤ x.2.currentLength) ∧
      ((∃ n ∈ row', tip n = true) → ∃ x ∈ pairs, x.1.currentLength < x.2.currentLength) := by
  induction h with
  | nil _ => exact ⟨[], rfl, rfl, by simp, by simp⟩
  | @tip n n' b factor row row' source source₁ source₂ htip hb hrange hn' _ ih =>
    rw [List.forall₂_cons] at htips
    obtain ⟨hgrowing, htips⟩ := htips
    obtain ⟨hn, hrow⟩ := List.forall_mem_cons.mp hrow
    -- the tip is the branch that gets longer, whatever the rest of the row does
    obtain ⟨pairs, hbefore, hafter, hle, -⟩ := ih htips hrow
    have hwithin := hn b (Node.kind_of_branch?_some hb)
    have hnot : b.isGrown = false := by
      obtain ⟨b', hb', hnot⟩ := hgrowing htip
      rw [hb] at hb'
      cases hb'
      exact hnot
    have hlt := Branch.lt_grow hgains hjitter.1
      (RandomSource.Bounded.le_range hjitter.2 hrange) hwithin hnot
    have hbranch : n'.branch? = some (b.grow (params.growthSpeed * factor)) := by
      rw [hn']
      rfl
    refine ⟨(b, b.grow (params.growthSpeed * factor)) :: pairs, ?_, ?_, ?_, ?_⟩
    · rw [List.map_cons, hbefore, List.filterMap_cons_some hb]
    · rw [List.map_cons, hafter, List.filterMap_cons_some hbranch]
    · rw [List.forall_mem_cons]
      exact ⟨⟨b.finalLength_grow _, b.le_grow hwithin.nonneg hwithin.le _⟩, hle⟩
    · intro _
      exact ⟨_, List.mem_cons_self, hlt⟩
  | @rest n row row' source source' hrest _ ih =>
    rw [List.forall₂_cons] at htips
    obtain ⟨hn, hrow⟩ := List.forall_mem_cons.mp hrow
    obtain ⟨pairs, hbefore, hafter, hle, hlt⟩ := ih htips.2 hrow
    -- this node is no tip, so the branch that gets longer is among the rest
    have htip : (∃ m ∈ n :: row', tip m = true) → ∃ m ∈ row', tip m = true := by
      simp [hrest]
    cases hb : n.branch? with
    | none =>
      refine ⟨pairs, ?_, ?_, hle, fun h => hlt (htip h)⟩
      · rw [hbefore, List.filterMap_cons_none hb]
      · rw [hafter, List.filterMap_cons_none hb]
    | some b =>
      have hself : b.currentLength ≤ b.currentLength := by
        have hwithin := hn b (Node.kind_of_branch?_some hb)
        exact le_self ((le_iff.mp hwithin.le).1.trans (le_iff.mp hwithin.le).2)
      refine ⟨(b, b) :: pairs, ?_, ?_, ?_, ?_⟩
      · rw [List.map_cons, hbefore, List.filterMap_cons_some hb]
      · rw [List.map_cons, hafter, List.filterMap_cons_some hb]
      · rw [List.forall_mem_cons]
        exact ⟨⟨rfl, hself⟩, hle⟩
      · intro h
        obtain ⟨x, hx, hxlt⟩ := hlt (htip h)
        exact ⟨x, List.mem_cons_of_mem _ hx, hxlt⟩

/-! ## Frames give results -/

section Results

variable {σ : Type} [RandomSource σ] {m : Moment}

/-- A node fails in a frame only if the increment cannot be drawn or the noise has no value. -/
theorem Node.grow_ne_error
    (hrange : ∀ (source : σ) (e : Fault),
      RandomSource.range m.params.growthJitter.1 m.params.growthJitter.2 source ≠ .error e)
    (hnoise : ∀ x y z e, m.noise x y z ≠ .error e) (n : Node) (entry : Joint) (source : σ)
    (e : Fault) : n.grow m entry source ≠ .error e := by
  intro h
  unfold Node.grow at h
  split at h
  · cases h
  · cases h
  · rename_i b _
    simp only [growBranch, Outcome.except_bind_eq_error] at h
    rcases h with hadvance | ⟨⟨b', source'⟩, -, h⟩
    · unfold Branch.advance at hadvance
      split at hadvance
      · simp only [Outcome.except_bind_eq_error, Outcome.except_pure_eq_error, and_false,
          exists_false, or_false] at hadvance
        exact hrange _ _ hadvance
      · cases hadvance
    · split at h
      · exact Outcome.except_pure_eq_error.mp h
      · simp only [Outcome.except_bind_eq_error, Outcome.except_pure_eq_error, and_false,
          exists_false, or_false] at h
        unfold Branch.sway at h
        split at h
        · cases h
        · simp only [FlowField.deflection, Outcome.except_bind_eq_error,
            Outcome.except_pure_eq_error, and_false, exists_false, or_false] at h
          exact hnoise _ _ _ _ h

theorem OnSite.mapM_growNode_ne_error
    (hgrow : ∀ (n : Node) (entry : Joint) (source : σ) (e : Fault),
      n.grow m entry source ≠ .error e) {row : List Node} {s t : Site σ} {e : Fault}
    (hentry : ∀ n ∈ row, n.entry.index < s.skeleton.size)
    (hexit : ∀ n ∈ row, n.exit.index < s.skeleton.size) :
    (row.mapM (growNode m)) s ≠ .error e t := by
  induction row generalizing s with
  | nil => exact Outcome.pure_eq_error.mp
  | cons n row ih =>
    intro h
    obtain ⟨hn, hentry⟩ := List.forall_mem_cons.mp hentry
    obtain ⟨hx, hexit⟩ := List.forall_mem_cons.mp hexit
    rcases Outcome.mapM_cons_eq_error.mp h with h | ⟨r, u, hr, hrest⟩
    · simp only [growNode, Outcome.bind_eq_error, Outcome.pure_eq_error, joint_eq_ok, draw_eq_ok,
        draw_eq_error, and_false, exists_false, or_false] at h
      rcases h with h | ⟨entry, u, ⟨-, rfl⟩, h | ⟨grown, u, ⟨source, -, rfl⟩, h⟩⟩
      · exact absurd hn (Nat.not_lt.mpr (size_le_of_joint_eq_error h))
      · exact hgrow _ _ _ _ h.1
      · have hle := size_le_of_setJoint_eq_error h
        exact absurd hx (Nat.not_lt.mpr hle)
    · -- the nodes before have not taken joints away
      obtain ⟨entry, grown, source, -, -, -, -, rfl⟩ := growNode_eq_ok hr
      refine ih ?_ ?_ hrest <;> simpa [Skeleton.size_put]

/-- Frames of reachable plants give results where increments can be drawn and the noise has a value
everywhere. -/
theorem Plant.Reachable.exists_tick {origin : Vec} {p : Plant} (hp : Reachable origin p)
    (hrange : ∀ (source : σ) (e : Fault),
      RandomSource.range p.params.growthJitter.1 p.params.growthJitter.2 source ≠ .error e)
    {noise : Noise} (hnoise : ∀ x y z e, noise x y z ≠ .error e) (time : Scalar)
    (s : Surroundings σ) : ∃ q marks t, p.tick time noise s = .ok (q, marks) t := by
  obtain ⟨root, hroot⟩ := hp.sound.rooted
  cases h : p.tick time noise s with
  | ok a t => exact ⟨a.1, a.2, t, rfl⟩
  | error e t =>
    exfalso
    simp only [Plant.tick, Outcome.bind_eq_error, Outcome.pure_eq_error, and_false, exists_false,
      or_false, Garden.onSkeleton] at h
    split at h
    · cases h
    · rename_i herror
      simp only [OnSite.growAll, Outcome.bind_eq_error, Outcome.pure_eq_error, and_false,
        exists_false, or_false] at herror
      refine OnSite.mapM_growNode_ne_error ?_ ?_ ?_ herror
      · exact Node.grow_ne_error hrange hnoise
      · exact fun n hn => hroot.entry_inside hn
      · exact fun n hn => hroot.exit_inside hn

end Results

/-! ## Runs -/

namespace Plant

/-- The plant after a number of frames, whatever their times and noises, with sources that sample
within intervals. -/
inductive Framed (p : Plant) : ℕ → Plant → Prop
  | zero : Framed p 0 p
  | tick {σ : Type} [RandomSource σ] [RandomSource.Bounded σ] {n : ℕ} {q r : Plant} {time : Scalar}
      {noise : Noise} {marks : List Mark} {s t : Surroundings σ} :
      Framed p n q → q.tick time noise s = .ok (r, marks) t → Framed p (n + 1) r

/-- A plant whose branches gain in every frame until they are done. -/
structure Thriving (origin : Vec) (p : Plant) : Prop where
  reachable : Reachable origin p
  gains : p.params.Gains
  jitter : 0 < p.params.growthJitter.1 ∧ p.params.growthJitter.1 ≤ p.params.growthJitter.2
  bounded : p.Bounded

variable {origin : Vec} {p q : Plant}

section Frames

variable {σ : Type} [RandomSource σ] {time : Scalar} {noise : Noise} {marks : List Mark}
  {s t : Surroundings σ}

theorem params_of_tick (h : p.tick time noise s = .ok (q, marks) t) : q.params = p.params := by
  obtain ⟨nodes, k, source, -, rfl, -⟩ := tick_eq_ok h
  rfl

theorem Thriving.tick (hp : Thriving origin p) (h : p.tick time noise s = .ok (q, marks) t) :
    Thriving origin q := by
  have hparams := params_of_tick h
  refine ⟨hp.reachable.tick h, hparams ▸ hp.gains, hparams ▸ hp.jitter, ?_⟩
  unfold Bounded
  rw [hparams]
  exact forall_branch_of_tick Branch.Within.grow hp.bounded h

theorem Thriving.lengthens [RandomSource.Bounded σ] (hp : Thriving origin p)
    (h : p.tick time noise s = .ok (q, marks) t) (hnot : p.isFullyGrown = false) :
    p.Lengthens q := by
  obtain ⟨⟨drawn, hgrows⟩, hleaf⟩ := hp.reachable.exists_frameGrows h
  have htips := hgrows.tip_iff.imp fun old new htip hnew => (htip.mp hnew).1
  obtain ⟨pairs, hbefore, hafter, hle, hlt⟩ :=
    hgrows.fed.pairs hp.gains hp.jitter htips hp.bounded
  refine ⟨pairs, hbefore, hafter, hle, hlt ?_⟩
  -- as long as there is a branch to grow, one is drawn with a leaf, and that is a tip
  obtain ⟨mark, hmark, hhas⟩ := hleaf.mpr hnot
  rw [hgrows.marks_eq, List.mem_filterMap] at hmark
  obtain ⟨n, hn, hdrawn⟩ := hmark
  refine ⟨n, hn, ?_⟩
  rw [isTip, hdrawn]
  exact hhas

theorem Reachable.fullyGrown_of_tick (hp : Reachable origin p) (hgrown : p.isFullyGrown = true)
    (h : p.tick time noise s = .ok (q, marks) t) : q.isFullyGrown = true := by
  rw [(hp.sameRoot_of_tick hgrown h).plant_eq]
  exact hgrown

end Frames

/-- Frames either come to the end of growth, or each has taken a part of the slack. -/
theorem Framed.slack {n : ℕ} (h : p.Framed n q) (hp : Thriving origin p) :
    Thriving origin q ∧ q.params = p.params ∧ (q.isFullyGrown = true ∨ q.slack + n ≤ p.slack) := by
  induction h with
  | zero => exact ⟨hp, rfl, Or.inr le_rfl⟩
  | @tick _ _ _ n q r _ _ _ _ _ _ h ih =>
    obtain ⟨hq, hparams, hslack⟩ := ih
    refine ⟨hq.tick h, (params_of_tick h).trans hparams, ?_⟩
    cases hgrown : q.isFullyGrown with
    | true => exact Or.inl (hq.reachable.fullyGrown_of_tick hgrown h)
    | false =>
      have hlt := (hq.lengthens h hgrown).slack_lt (hq.tick h).bounded
      rcases hslack with hdone | hslack
      · rw [hgrown] at hdone
        cases hdone
      · exact Or.inr (by omega)

end Plant

/-! ## Raised plants -/

namespace Species

variable {σ : Type} [RandomSource σ] [RandomSource.Bounded σ] [RandomSource.BoundedAbove σ]
  {s : Species} {settings : Settings} {origin : Vec} {t t' : Surroundings σ} {p : Plant}

theorem thriving_of_raise (h : s.raise settings origin {} t = .ok (.ok p) t')
    (hgains : (s.params settings {}).Gains) :
    p.Thriving origin ∧ p.params = s.params settings {} := by
  obtain ⟨hspecies, hsettings, -⟩ := raise_eq_ok h
  have hlength : 0 < (s.params settings {}).length := by
    have hmem : ("length", s.length) ∈ s.positives := by
      simp [positives]
    have hpos := hspecies.positives _ hmem
    dsimp only at hpos
    -- no variation adds a zero to the length
    show 0 < s.length + 0
    exact lt_of_lt_of_le hpos (le_add_of_nonneg (nonneg_of_pos hpos) (by decide))
  have hyields : Turtle.Yields σ (s.params settings {}) fun kind =>
      ∀ b, kind = .branch b → b.Within (s.params settings {}).longest :=
    Turtle.yields_within hlength hsettings.lengthJitter.1 hsettings.lengthJitter.2
  have hkinds := kinds_of_raise hyields h
  obtain ⟨hreach, hparams⟩ := raise_induction (P := fun p => p.params = s.params settings {}) h
    (by
      intro p r r' hsprout
      obtain ⟨-, -, -, rfl, -⟩ := Plant.sprout_eq_ok hsprout
      rfl)
    (by
      rintro p p' tally r r' - hparams hgenerate
      obtain ⟨-, -, -, -, -, -, -, rfl, -⟩ := Plant.generate_eq_ok hgenerate
      exact hparams)
  refine ⟨⟨hreach, ?_, ?_, ?_⟩, hparams⟩
  · rwa [hparams]
  · rw [hparams]
    exact hsettings.growthJitter
  · unfold Plant.Bounded
    rwa [hparams]

/-- Growth makes progress until it is done, for raised plants without variation whose increments
are not lost in their lengths. In every frame of such a plant that is not fully grown a branch gets
longer, while none gets shorter, and after more frames than there are numbers up to the final
lengths it is fully grown. If the increments can be drawn from finite intervals and the noise has
a value everywhere, all these frames give results. -/
theorem raise_progress (h : s.raise settings origin {} t = .ok (.ok p) t')
    (hgains : (s.params settings {}).Gains) :
    (∀ {n : ℕ} {q r : Plant}, p.Framed n q → ∀ {τ : Type} [RandomSource τ]
      [RandomSource.Bounded τ] {time : Scalar} {noise : Noise} {marks : List Mark}
      {u u' : Surroundings τ}, q.tick time noise u = .ok (r, marks) u' →
      q.isFullyGrown = false → q.Lengthens r) ∧
    (∀ {n : ℕ} {q : Plant}, p.Framed n q → p.slack < n → q.isFullyGrown = true) ∧
    (settings.growthJitter.2.isFinite = true → ∀ {n : ℕ} {q : Plant}, p.Framed n q →
      ∀ {τ : Type} [WordSource τ] {noise : Noise}, (∀ x y z e, noise x y z ≠ .error e) →
      ∀ (time : Scalar) (u : Surroundings τ),
      ∃ r marks u', q.tick time noise u = .ok (r, marks) u') := by
  obtain ⟨hp, hparams⟩ := thriving_of_raise h hgains
  refine ⟨?_, ?_, ?_⟩
  · intro n q r hframed τ _ _ time noise marks u u' htick hnot
    exact (hframed.slack hp).1.lengthens htick hnot
  · intro n q hframed hlt
    exact (hframed.slack hp).2.2.resolve_right (by omega)
  · intro hfinite n q hframed τ _ noise hnoise time u
    obtain ⟨hq, hsame, -⟩ := hframed.slack hp
    refine hq.reachable.exists_tick ?_ hnoise time u
    intro source e herror
    have hjitter : q.params.growthJitter = settings.growthJitter := by
      rw [hsame, hparams]
      rfl
    refine (WordSource.range_eq_error herror).2 (samplable_of_nonneg ?_ ?_)
    · exact nonneg_of_pos hq.jitter.1
    · rw [hjitter]
      exact hfinite

/-- A twig with these settings, and the same twig after one frame. -/
def firstFrame (settings : Settings) : Garden Reel (Option (Plant × Plant)) := do
  match ← twig.raise settings ⟨0, 0⟩ {} with
  | .ok p =>
    let (q, _) ← p.tick 0 (.constant 0)
    return some (p, q)
  | .error _ => return none

theorem firstFrame_eq_ok {settings : Settings} {u u' : Surroundings Reel} {p q : Plant}
    (h : firstFrame settings u = .ok (some (p, q)) u') : ∃ v marks,
      twig.raise settings ⟨0, 0⟩ {} u = .ok (.ok p) v ∧
      p.tick 0 (.constant 0) v = .ok (q, marks) u' := by
  simp only [firstFrame, Outcome.bind_eq_ok] at h
  obtain ⟨raised, v, hraise, h⟩ := h
  cases raised with
  | error e =>
    obtain ⟨hnone, -⟩ := Outcome.pure_eq_ok.mp h
    cases hnone
  | ok p' =>
    simp only [Outcome.bind_eq_ok, Outcome.pure_eq_ok, Option.some.injEq, Prod.mk.injEq] at h
    obtain ⟨⟨q', marks⟩, v', htick, ⟨rfl, rfl⟩, rfl⟩ := h
    exact ⟨v, marks, hraise, htick⟩

/-- The increments of the twig are not lost: they are no less than 0.08, and up to the length of 6
no two numbers are as far apart. -/
theorem gains_twig : (twig.params {} {}).Gains := by
  have hsix : IsMantissa 12582912 (-21) :=
    ⟨by norm_num, by norm_num, Or.inr (by norm_num), by norm_num⟩
  have hleast : (twig.params {} {}).leastIncrement.value? = some (10737419 / 2 ^ 27) := by
    decide +kernel
  refine GrowthParams.gains_of_gap hsix ?_ hleast (by norm_num)
  decide +kernel

/-- The branch of the twig gets longer in its first frame, and is done after enough of them. -/
theorem raise_progress_twig : ∃ p q t t' marks,
    twig.raise {} ⟨0, 0⟩ {} ⟨(⟨#[0], 0⟩ : Reel), #[]⟩ = .ok (.ok p) t ∧
    (twig.params {} {}).Gains ∧ p.tick 0 (.constant 0) t = .ok (q, marks) t' ∧
    p.isFullyGrown = false ∧ p.Lengthens q ∧
    ∀ {n : ℕ} {r : Plant}, p.Framed n r → p.slack < n → r.isFullyGrown = true := by
  have hok : Outcome.isOk (fun r => r.any fun pq => !pq.1.isFullyGrown)
      (firstFrame {} ⟨⟨#[0], 0⟩, #[]⟩) = true := by decide +kernel
  obtain ⟨pq, t', h, hany⟩ := Outcome.exists_of_isOk hok
  obtain ⟨⟨p, q⟩, rfl, hnot⟩ := (Option.any_eq_true _ _).mp hany
  rw [Bool.not_eq_true'] at hnot
  obtain ⟨t, marks, hraise, htick⟩ := firstFrame_eq_ok h
  obtain ⟨hlengthens, hdone, -⟩ := raise_progress hraise gains_twig
  exact ⟨p, q, t, t', marks, hraise, gains_twig, htick, hnot, hlengthens .zero htick hnot,
    fun hframed hlt => hdone hframed hlt⟩

/-- The checks accept settings whose speed and jitter are positive, though their product is rounded
to zero. The branch of the twig is not grown, and a frame does not make it longer. -/
theorem raise_stalled : ∃ p q t t' marks,
    twig.raise { growthSpeed := 1e-40, growthJitter := (1e-6, 1e-6) } ⟨0, 0⟩ {}
      ⟨(⟨#[0], 0⟩ : Reel), #[]⟩ = .ok (.ok p) t ∧
    p.tick 0 (.constant 0) t = .ok (q, marks) t' ∧ p.isFullyGrown = false ∧ ¬ p.Lengthens q := by
  have hok : Outcome.isOk (fun r => r.any fun pq => !pq.1.isFullyGrown &&
      pq.1.branches.all fun b => pq.2.branches.all fun b' => !(b.currentLength < b'.currentLength))
      (firstFrame { growthSpeed := 1e-40, growthJitter := (1e-6, 1e-6) } ⟨⟨#[0], 0⟩, #[]⟩) =
        true := by decide +kernel
  obtain ⟨pq, t', h, hany⟩ := Outcome.exists_of_isOk hok
  obtain ⟨⟨p, q⟩, rfl, hstalled⟩ := (Option.any_eq_true _ _).mp hany
  rw [Bool.and_eq_true, Bool.not_eq_true'] at hstalled
  obtain ⟨hnot, hall⟩ := hstalled
  obtain ⟨t, marks, hraise, htick⟩ := firstFrame_eq_ok h
  refine ⟨p, q, t, t', marks, hraise, htick, hnot, ?_⟩
  rintro ⟨pairs, hp, hq, -, x, hx, hlt⟩
  have hbefore : x.1 ∈ p.branches := hp ▸ List.mem_map_of_mem hx
  have hafter : x.2 ∈ q.branches := hq ▸ List.mem_map_of_mem hx
  have hself := List.all_eq_true.mp (List.all_eq_true.mp hall x.1 hbefore) x.2 hafter
  simp [hlt] at hself

end Species

end PlantGrowth
