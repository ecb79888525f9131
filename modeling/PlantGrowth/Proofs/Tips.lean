import PlantGrowth.Proofs.Drawing
import PlantGrowth.Proofs.Memoryless

/-!
# Tips

The tips of a frame are the branches that are drawn with a leaf at their end. They are exactly
the branches that growth moves in that frame, and as long as the plant is not fully grown there is
one, so growth never comes to a halt.

`Filmed` follows the random source through a frame: each node takes part with the source that the
node before it has left, on the joints that the skeleton has in the end (`filmed_of_growAll`).
Read off it are what grows (`Row.Fed`, `fed_of_filmed`) and how many words that takes from a
source of random words (`Row.Fed.draws_eq`). `all_grown_of_no_tip` is the induction from the root
upwards: where no branch can grow, growth has passed them all. `Plant.Reachable.tick_tips` puts
the three together.
-/

set_option autoImplicit false

namespace PlantGrowth

/-! ## Growing branches and their marks -/

/-- Whether the mark is a segment with a leaf at its end. -/
def Mark.hasLeaf : Mark → Bool
  | .segment _ _ _ _ leaf => leaf.isSome
  | .dot _ => false

/-- Whether the node is drawn with a leaf at its end. -/
def isTip (drawn : Node → Option Mark) (n : Node) : Bool := (drawn n).any Mark.hasLeaf

/-- The node is a branch that is not grown. -/
def Node.IsGrowing (n : Node) : Prop := ∃ b, n.branch? = some b ∧ b.isGrown = false

theorem Node.not_isGrowing_iff {n : Node} :
    ¬ n.IsGrowing ↔ ∀ b, n.branch? = some b → b.isGrown = true := by
  simp [IsGrowing]

theorem Node.branch?_of_kind {n : Node} {b : Branch} (h : n.kind = .branch b) :
    n.branch? = some b := by
  simp [branch?, h]

theorem Plant.isFullyGrown_eq_false_iff {p : Plant} :
    p.isFullyGrown = false ↔ ∃ n ∈ p.nodes, n.IsGrowing := by
  rw [← Bool.not_eq_true, isFullyGrown_iff]
  simp [Node.IsGrowing]

namespace Row

variable {σ : Type} [RandomSource σ]

/-- How the branches of a row grow in a frame, one node after the other with the source handed on:
a node that is a tip gets an increment from the source, any other stays as it is and leaves the
source alone. -/
inductive Fed (params : GrowthParams) (tip : Node → Bool) :
    List Node → σ → List Node → σ → Prop
  | nil (source : σ) : Fed params tip [] source [] source
  | tip {n n' : Node} {b : Branch} {factor : Scalar} {row row' : List Node}
      {source source₁ source₂ : σ} : tip n' = true → n.branch? = some b →
      RandomSource.range params.growthJitter.1 params.growthJitter.2 source =
        .ok (factor, source₁) →
      n' = { n with kind := .branch (b.grow (params.growthSpeed * factor)) } →
      Fed params tip row source₁ row' source₂ →
      Fed params tip (n :: row) source (n' :: row') source₂
  | rest {n : Node} {row row' : List Node} {source source' : σ} : tip n = false →
      Fed params tip row source row' source' → Fed params tip (n :: row) source (n :: row') source'

end Row

/-! ## A node in a frame -/

section Fed

variable {σ : Type} [RandomSource σ]

theorem Branch.advance_of_growing {m : Moment} {entry : Joint} {b b' : Branch}
    {source source' : σ} (hready : entry.ready = true) (hb : b.isGrown = false)
    (h : b.advance m entry source = .ok (b', source')) :
    ∃ factor, RandomSource.range m.params.growthJitter.1 m.params.growthJitter.2 source =
        .ok (factor, source') ∧ b' = b.grow (m.params.growthSpeed * factor) := by
  simp only [advance, hready, hb, Bool.not_false, Bool.and_true, if_true,
    Outcome.except_bind_eq_ok, Outcome.except_pure_eq_ok, Prod.mk.injEq] at h
  obtain ⟨⟨factor, source₁⟩, hrange, rfl, rfl⟩ := h
  exact ⟨factor, hrange, rfl⟩

namespace Node.Grows

variable {m : Moment} {n : Node} {entry : Joint} {source source' : σ} {g : Grown}

/-- A leaf is drawn at the end of a branch that growth has reached and that was not grown, and of
nothing else. -/
theorem leaf_iff (h : n.Grows m entry source g source') :
    g.mark.any Mark.hasLeaf = true ↔ n.IsGrowing ∧ entry.ready = true := by
  have hnone : ∀ {kind : Kind}, n.kind = kind → (∀ b, kind ≠ .branch b) → ¬ n.IsGrowing := by
    rintro kind hkind hne ⟨b, hb, -⟩
    exact hne b (hkind.symm.trans (kind_of_branch?_some hb))
  cases h with
  | placeholder hkind => simpa using fun hg => absurd hg (hnone hkind (by simp))
  | budHidden hkind _ _ => simpa using fun hg => absurd hg (hnone hkind (by simp))
  | budShown hkind _ =>
    simpa [Mark.hasLeaf] using fun hg => absurd hg (hnone hkind (by simp))
  | waiting _ hready => simp [hready]
  | @reached before b _ _ leaf hkind hready _ _ hleaf =>
    have hgrowing : n.IsGrowing ↔ before.isGrown = false := by
      simp [IsGrowing, branch?_of_kind hkind]
    rw [hgrowing, hleaf]
    cases hb : before.isGrown <;> simp [Mark.hasLeaf, hready]

/-- A node that gets no leaf stays as it is and draws nothing. -/
theorem same_of_no_leaf (h : n.Grows m entry source g source')
    (hleaf : g.mark.any Mark.hasLeaf = false) : g.node = n ∧ source' = source := by
  have hnot : ¬ (n.IsGrowing ∧ entry.ready = true) := by
    rw [← h.leaf_iff, hleaf]
    simp
  cases h with
  | placeholder _ => exact ⟨rfl, rfl⟩
  | budHidden _ _ _ => exact ⟨rfl, rfl⟩
  | budShown _ _ => exact ⟨rfl, rfl⟩
  | waiting _ _ => exact ⟨rfl, rfl⟩
  | @reached before b _ _ _ hkind hready hadvance _ _ =>
    have hgrown : before.isGrown = true :=
      not_isGrowing_iff.mp (fun hg => hnot ⟨hg, hready⟩) before (branch?_of_kind hkind)
    rw [Branch.advance_of_grown hgrown] at hadvance
    cases hadvance
    exact ⟨by rw [← hkind], rfl⟩

/-- A node that gets a leaf is a branch that gets an increment. -/
theorem increment_of_leaf (h : n.Grows m entry source g source')
    (hleaf : g.mark.any Mark.hasLeaf = true) : ∃ b factor, n.branch? = some b ∧
      RandomSource.range m.params.growthJitter.1 m.params.growthJitter.2 source =
        .ok (factor, source') ∧
      g.node = { n with kind := .branch (b.grow (m.params.growthSpeed * factor)) } := by
  obtain ⟨⟨b, hb, hnot⟩, hready⟩ := h.leaf_iff.mp hleaf
  have hkind := kind_of_branch?_some hb
  cases h with
  | placeholder hn => rw [hn] at hkind; cases hkind
  | budHidden hn _ _ => rw [hn] at hkind; cases hkind
  | budShown hn _ => rw [hn] at hkind; cases hkind
  | waiting _ hwaiting => rw [hready] at hwaiting; cases hwaiting
  | @reached before b' _ _ _ hn _ hadvance _ _ =>
    rw [hn] at hkind
    cases hkind
    obtain ⟨factor, hrange, rfl⟩ := Branch.advance_of_growing hready hnot hadvance
    exact ⟨b, factor, hb, hrange, rfl⟩

end Node.Grows

/-! ## A row in a frame, with the source handed on -/

/-- The nodes took part in a frame one after the other, each with the source that the one before
has left and on the joints that the skeleton has. -/
inductive Filmed (m : Moment) (k : Skeleton) :
    List Node → σ → List (Node × Option Mark) → σ → Prop
  | nil (source : σ) : Filmed m k [] source [] source
  | cons {n : Node} {result : Node × Option Mark} {row : List Node}
      {results : List (Node × Option Mark)} {e x : Joint} {source source₁ source₂ : σ} :
      k.get? n.entry = some e → k.get? n.exit = some x →
      n.Grows m e source ⟨result.1, x, result.2⟩ source₁ →
      Filmed m k row source₁ results source₂ →
      Filmed m k (n :: row) source (result :: results) source₂

variable {origin : Vec} {root : JointId} {m : Moment} {k : Skeleton}

theorem Filmed.shown {row : List Node} {results : List (Node × Option Mark)} {source source' : σ}
    (h : Filmed m k row source results source') : List.Forall₂ (Shown σ m k) row results := by
  induction h with
  | nil _ => exact .nil
  | cons he hx hgrows _ ih => exact .cons ⟨_, _, _, _, he, hx, hgrows⟩ ih

/-- A frame writes the exits of its nodes and nothing else. -/
theorem get?_of_mapM_growNode {row : List Node} {results : List (Node × Option Mark)}
    {s t : Site σ} (h : (row.mapM (OnSite.growNode m)) s = .ok results t) {j : JointId}
    (hj : ∀ n ∈ row, n.exit ≠ j) : t.skeleton.get? j = s.skeleton.get? j := by
  induction row generalizing results s with
  | nil =>
    obtain ⟨-, rfl⟩ := Outcome.mapM_nil_eq_ok.mp h
    rfl
  | cons n row ih =>
    obtain ⟨result, r, results', hn, hrest, -⟩ := Outcome.mapM_cons_eq_ok.mp h
    obtain ⟨e, g, source, -, -, -, -, rfl⟩ := OnSite.growNode_eq_ok hn
    rw [ih hrest fun a ha => hj a (List.mem_cons_of_mem n ha)]
    exact Skeleton.get?_put_of_ne (hj n List.mem_cons_self) _

theorem filmed_of_mapM {before row : List Node} {results : List (Node × Option Mark)}
    {id : UInt32} {s t : Site σ} (h : (row.mapM (OnSite.growNode m)) s = .ok results t)
    (hroot : Rooted origin root (before ++ row) s.skeleton id) :
    Filmed m t.skeleton row s.source results t.source := by
  induction row generalizing before results s with
  | nil =>
    obtain ⟨rfl, rfl⟩ := Outcome.mapM_nil_eq_ok.mp h
    exact .nil _
  | cons n row ih =>
    obtain ⟨result, r, results', hn, hrest, rfl⟩ := Outcome.mapM_cons_eq_ok.mp h
    obtain ⟨e, g, source, he, hlt, hgrows, rfl, rfl⟩ := OnSite.growNode_eq_ok hn
    -- no later node ends where this one starts or ends
    have hlater : ∀ a ∈ row, a.exit ≠ n.entry ∧ a.exit ≠ n.exit := by
      intro a ha
      obtain ⟨front, back, rfl⟩ := List.append_of_mem ha
      rw [show before ++ n :: (front ++ a :: back) = (before ++ n :: front) ++ a :: back by
        simp] at hroot
      obtain ⟨hentry, hexit⟩ := hroot.exit_ne_of_before (n := n) (by simp)
      exact ⟨hentry.symm, hexit.symm⟩
    have hroot' := hroot.put (n := n) (by simp) g.exit
    rw [show before ++ n :: row = (before ++ [n]) ++ row by simp] at hroot'
    refine .cons (e := e) (x := g.exit) ?_ ?_ hgrows (ih hrest hroot')
    · rw [get?_of_mapM_growNode hrest fun a ha => (hlater a ha).1]
      rw [Skeleton.get?_put_of_ne hroot.entry_ne_exit.symm, he]
    · rw [get?_of_mapM_growNode hrest fun a ha => (hlater a ha).2]
      exact Skeleton.get?_put_self hlt _

theorem filmed_of_growAll {row row' : List Node} {marks : List Mark} {id : UInt32}
    {s t : Site σ} (h : OnSite.growAll m row s = .ok (row', marks) t)
    (hroot : Rooted origin root row s.skeleton id) :
    ∃ results, row' = results.map (·.1) ∧ marks = results.filterMap (·.2) ∧
      Filmed m t.skeleton row s.source results t.source ∧
      Rooted origin root row' t.skeleton id := by
  obtain ⟨results, hresults, rfl, rfl⟩ := OnSite.growAll_eq_ok h
  have hroot₀ : Rooted origin root ([] ++ row) s.skeleton id := hroot
  have hfilmed := filmed_of_mapM hresults hroot₀
  obtain ⟨hroot', -⟩ := shown_of_mapM hresults hroot₀ .nil
  exact ⟨results, rfl, rfl, hfilmed, hroot'.congr_handles (OnSite.handles_of_growAll h)⟩

/-! ## What grows -/

/-- A node and what it has become: it is drawn with a leaf exactly if it was a branch that was not
grown and every branch above it is grown now, and if not it has stayed as it was. -/
structure TipStep (drawn : Node → Option Mark) (row' : List Node) (old new : Node) : Prop where
  tip_iff : isTip drawn new = true ↔ old.IsGrowing ∧ Row.AboveGrown row' new
  eq_of_rest : isTip drawn new = false → new = old

theorem isTip_markOf {results : List (Node × Option Mark)}
    (hd : Row.DistinctExits root (results.map (·.1))) {result : Node × Option Mark}
    (hr : result ∈ results) : isTip (markOf results) result.1 = result.2.any Mark.hasLeaf := by
  rw [isTip, markOf_of_mem hd hr]

theorem tipSteps_of_shown {row : List Node} {results : List (Node × Option Mark)} {id : UInt32}
    (hroot : Rooted origin root (results.map (·.1)) k id)
    (hshown : List.Forall₂ (Shown σ m k) row results) :
    List.Forall₂ (TipStep (markOf results) (results.map (·.1))) row (results.map (·.1)) := by
  have hflags := (hroot.flags (flags_of_shown hshown)).1
  have hmem : List.Forall₂ (fun result n => result ∈ results ∧ Shown σ m k n result) results row :=
    (List.forall₂_and_left results row).mpr ⟨fun _ h => h, hshown.flip⟩
  rw [List.forall₂_map_right_iff]
  refine (hmem.imp ?_).flip
  rintro result n ⟨hr, e, x, source, source', he, hx, hgrows⟩
  have htip := isTip_markOf hroot.distinct hr
  have hready : e.ready = true ↔ Row.AboveGrown (results.map (·.1)) result.1 := by
    refine (hflags result.1 (List.mem_map_of_mem hr) e ?_).1
    rw [hgrows.handles_eq.1, he]
  constructor
  · rw [htip, ← hready]
    exact hgrows.leaf_iff
  · intro hrest
    rw [htip] at hrest
    exact (hgrows.same_of_no_leaf hrest).1

theorem fed_of_filmed {row : List Node} {results all : List (Node × Option Mark)}
    {source source' : σ} (hd : Row.DistinctExits root (all.map (·.1)))
    (h : Filmed m k row source results source') (hsub : results ⊆ all) :
    Row.Fed m.params (isTip (markOf all)) row source (results.map (·.1)) source' := by
  induction h with
  | nil source => exact .nil source
  | @cons n result row results e x source source₁ source₂ _ _ hgrows _ ih =>
    have hrest := ih fun r hr => hsub (List.mem_cons_of_mem result hr)
    have htip := isTip_markOf hd (hsub List.mem_cons_self)
    rw [List.map_cons]
    cases hleaf : result.2.any Mark.hasLeaf with
    | true =>
      obtain ⟨b, factor, hb, hrange, hnode⟩ := hgrows.increment_of_leaf hleaf
      exact .tip (htip.trans hleaf) hb hrange hnode hrest
    | false =>
      obtain ⟨hnode, rfl⟩ := hgrows.same_of_no_leaf hleaf
      have hsame : result.1 = n := hnode
      rw [hsame] at htip ⊢
      exact .rest (htip.trans hleaf) hrest

end Fed

/-! ## No standstill -/

/-- Where no branch of a tree is a tip, growth has passed all of them. -/
theorem all_grown_of_no_tip {root : JointId} {drawn : Node → Option Mark} {row row' : List Node}
    (hd : Row.DistinctExits root row') (hp : Row.IsPreorder [root] row')
    (h : List.Forall₂ (TipStep drawn row') row row') (hnone : ∀ n ∈ row', isTip drawn n = false) :
    ∀ n ∈ row', Row.PathGrown row' n := by
  -- a node with grown branches above it is grown itself, or it would be a tip
  have step : ∀ n ∈ row', Row.AboveGrown row' n → Row.PathGrown row' n := by
    intro n hn habove
    obtain ⟨old, -, hold⟩ := exists_of_forall₂ h hn
    have hrest := hnone n hn
    obtain rfl := hold.eq_of_rest hrest
    rw [Row.pathGrown_iff]
    refine ⟨habove, Node.not_isGrowing_iff.mp fun hgrowing => ?_⟩
    rw [hold.tip_iff.mpr ⟨hgrowing, habove⟩] at hrest
    cases hrest
  refine hp.induction ?_ ?_
  · intro n hn hroot
    exact step n hn fun a b ha _ => absurd ha (hd.not_above_of_entry_eq_root hroot)
  · intro a n hparent ha
    exact step n hparent.2.1 ((Row.aboveGrown_iff_of_parent hd hparent).mpr ha)

/-- A frame has a tip exactly if there was a branch left to grow. -/
theorem exists_tip_iff {root : JointId} {drawn : Node → Option Mark} {row row' : List Node}
    (hd : Row.DistinctExits root row') (hp : Row.IsPreorder [root] row')
    (h : List.Forall₂ (TipStep drawn row') row row') :
    (∃ n ∈ row', isTip drawn n = true) ↔ ∃ n ∈ row, n.IsGrowing := by
  constructor
  · rintro ⟨n, hn, htip⟩
    obtain ⟨old, hold, hstep⟩ := exists_of_forall₂ h hn
    exact ⟨old, hold, (hstep.tip_iff.mp htip).1⟩
  · rintro ⟨old, hold, hgrowing⟩
    by_contra hnone
    simp only [not_exists, not_and, Bool.not_eq_true] at hnone
    obtain ⟨n, hn, hstep⟩ := exists_of_forall₂ h.flip hold
    obtain rfl := hstep.eq_of_rest (hnone n hn)
    have hpath := all_grown_of_no_tip hd hp h hnone n hn
    exact Node.not_isGrowing_iff.mpr (Row.pathGrown_iff.mp hpath).2 hgrowing

/-! ## Words drawn -/

section Draws

variable {τ : Type} [WordSource τ]

/-- Whether a sample of the interval takes a word: it is not empty and has finite ends and width. -/
def WordSource.takesWord (lo hi : Scalar) : Bool :=
  decide (lo < hi) && (lo.isFinite && hi.isFinite && (hi - lo).isFinite)

/-- A sample takes one word or, of an empty interval, none. -/
theorem draws_of_range {lo hi factor : Scalar} {source source' : Counted τ}
    (h : RandomSource.range lo hi source = .ok (factor, source')) :
    source'.draws = source.draws + if WordSource.takesWord lo hi then 1 else 0 := by
  have h' : WordSource.range lo hi source = .ok (factor, source') := h
  unfold WordSource.range at h'
  unfold WordSource.takesWord
  split at h'
  · rename_i hlt
    split at h'
    · rename_i hfinite
      cases h'
      simp only [hlt, hfinite, decide_true, Bool.and_self, if_true]
    · cases h'
  · rename_i hlt
    cases h'
    simp [hlt]

/-- A frame takes a word for each of its tips, or none at all. -/
theorem Row.Fed.draws_eq {params : GrowthParams} {tip : Node → Bool} {row row' : List Node}
    {source source' : Counted τ} (h : Row.Fed params tip row source row' source') :
    source'.draws = source.draws +
      if WordSource.takesWord params.growthJitter.1 params.growthJitter.2 then row'.countP tip
      else 0 := by
  induction h with
  | nil source => simp
  | tip htip _ hrange _ _ ih =>
    rw [ih, draws_of_range hrange, List.countP_cons_of_pos htip]
    split <;> omega
  | rest hrest _ ih =>
    rw [ih, List.countP_cons_of_neg (by simp [hrest])]

end Draws

theorem countP_isTip (drawn : Node → Option Mark) (row : List Node) :
    (row.filterMap drawn).countP Mark.hasLeaf = row.countP (isTip drawn) := by
  rw [List.countP_filterMap]
  refine List.countP_congr fun n _ => ?_
  unfold isTip
  cases drawn n <;> simp

/-! ## Tips of reachable plants -/

namespace Plant

/-- How a frame grows the plant, with the marks `drawn` of the nodes: a node is drawn with a leaf
exactly if it was a branch that was not grown and every branch above it is grown now, and the
nodes with leaves, and no others, get an increment. -/
structure FrameGrows {σ : Type} [RandomSource σ] (origin : Vec) (p p' : Plant) (marks : List Mark)
    (source source' : σ) (drawn : Node → Option Mark) : Prop where
  marks_eq : marks = p'.nodes.filterMap drawn
  isDrawing : Row.IsDrawing origin p'.nodes drawn
  tip_iff : List.Forall₂ (fun old new =>
    isTip drawn new = true ↔ old.IsGrowing ∧ Row.AboveGrown p'.nodes new) p.nodes p'.nodes
  fed : Row.Fed p.params (isTip drawn) p.nodes source p'.nodes source'

section Tips

variable {σ : Type} [RandomSource σ] {origin : Vec} {p p' : Plant} {time : Scalar} {noise : Noise}
  {marks : List Mark} {s t : Surroundings σ}

theorem Reachable.exists_frameGrows (hp : Reachable origin p)
    (h : p.tick time noise s = .ok (p', marks) t) :
    (∃ drawn, FrameGrows origin p p' marks s.source t.source drawn) ∧
      ((∃ mark ∈ marks, mark.hasLeaf = true) ↔ p.isFullyGrown = false) := by
  obtain ⟨root, hroot⟩ := hp.sound.rooted
  obtain ⟨nodes, k, source, hgrow, rfl, rfl⟩ := tick_eq_ok h
  obtain ⟨results, rfl, rfl, hfilmed, hrooted⟩ := filmed_of_growAll hgrow hroot
  have hsteps := tipSteps_of_shown hrooted hfilmed.shown
  have hmarks := filterMap_markOf hrooted.distinct
  constructor
  · exact ⟨markOf results, {
      marks_eq := hmarks
      isDrawing := isDrawing_of_shown hrooted hfilmed.shown
      tip_iff := hsteps.imp fun _ _ hstep => hstep.tip_iff
      fed := fed_of_filmed hrooted.distinct hfilmed (List.Subset.refl _) }⟩
  · rw [isFullyGrown_eq_false_iff, ← exists_tip_iff hrooted.distinct hrooted.preorder hsteps, hmarks]
    -- there are tips as soon as their number is not zero
    rw [← List.countP_pos_iff, countP_isTip, List.countP_pos_iff]

theorem FrameGrows.draws_eq {τ : Type} [WordSource τ] {source source' : Counted τ}
    {drawn : Node → Option Mark} (h : FrameGrows origin p p' marks source source' drawn) :
    source'.draws = source.draws +
      if WordSource.takesWord p.params.growthJitter.1 p.params.growthJitter.2 then
        marks.countP Mark.hasLeaf
      else 0 := by
  rw [h.fed.draws_eq, h.marks_eq, countP_isTip]

end Tips

/-- Growth never comes to a halt, and the leaves of a frame show where it goes on. In every frame
of a reachable plant there is a segment with a leaf if and only if the plant was not fully grown;
the segments with leaves are those of the branches that were not grown and above which all are
grown now, and these branches alone get an increment. From a source of random words the frame
takes one for each leaf, if the interval of the increments can be sampled, and else none. -/
theorem Reachable.tick_tips {origin : Vec} {p : Plant} (hp : Reachable origin p) (time : Scalar)
    (noise : Noise) :
    (∀ (σ : Type) [RandomSource σ] (s t : Surroundings σ) (p' : Plant) (marks : List Mark),
      p.tick time noise s = .ok (p', marks) t →
      (∃ drawn, FrameGrows origin p p' marks s.source t.source drawn) ∧
        ((∃ mark ∈ marks, mark.hasLeaf = true) ↔ p.isFullyGrown = false)) ∧
    (∀ (τ : Type) [WordSource τ] (s t : Surroundings (Counted τ)) (p' : Plant)
      (marks : List Mark), p.tick time noise s = .ok (p', marks) t →
      t.source.draws = s.source.draws +
        if WordSource.takesWord p.params.growthJitter.1 p.params.growthJitter.2 then
          marks.countP Mark.hasLeaf
        else 0) := by
  constructor
  · intro σ _ s t p' marks h
    exact hp.exists_frameGrows h
  · intro τ _ s t p' marks h
    obtain ⟨⟨drawn, hgrows⟩, -⟩ := hp.exists_frameGrows h
    exact hgrows.draws_eq

/-- A source of words that counts them. -/
def countedReel : Counted Reel := ⟨⟨#[0, 0xffffffff], 0⟩, 0⟩

/-- A frame of the sapling, which is not fully grown, shows a leaf and takes a word for each. -/
theorem Reachable.tick_tips_sapling : ∃ p t p' marks t', sapling ⟨⟨#[0], 0⟩, #[]⟩ = .ok p t ∧
    p.tick 0 (.constant 0) ⟨countedReel, #[]⟩ = .ok (p', marks) t' ∧
    (∃ drawn, FrameGrows ⟨0, 0⟩ p p' marks countedReel t'.source drawn) ∧
    p.isFullyGrown = false ∧ (∃ mark ∈ marks, mark.hasLeaf = true) ∧
    t'.source.draws = countedReel.draws +
      if WordSource.takesWord p.params.growthJitter.1 p.params.growthJitter.2 then
        marks.countP Mark.hasLeaf
      else 0 := by
  have hok : Outcome.isOk (fun p => !p.isFullyGrown && Outcome.isOk (fun _ => true)
      (p.tick 0 (.constant 0) ⟨countedReel, #[]⟩)) (sapling ⟨⟨#[0], 0⟩, #[]⟩) = true := by
    decide +kernel
  obtain ⟨p, t, h, hframe⟩ := Outcome.exists_of_isOk hok
  rw [Bool.and_eq_true, Bool.not_eq_true'] at hframe
  obtain ⟨⟨p', marks⟩, t', htick, -⟩ := Outcome.exists_of_isOk hframe.2
  obtain ⟨hgrows, hdraws⟩ := (reachable_of_sapling h).tick_tips 0 (.constant 0)
  obtain ⟨hdrawn, hleaf⟩ := hgrows _ _ _ _ _ htick
  exact ⟨p, t, p', marks, t', h, htick, hdrawn, hframe.1, hleaf.mpr hframe.1,
    hdraws _ _ _ _ _ htick⟩

end Plant

end PlantGrowth
