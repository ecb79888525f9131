import PlantGrowth.Proofs.Passes
import PlantGrowth.Proofs.Progress
import PlantGrowth.Proofs.Sway

/-!
# Branches that only extend

An increment is taken as nothing if it is negative or no number, and a branch that reaches its final
length stops there. So whatever the increments are, a branch with a final length that is not
negative is between zero and that (`Branch.Clamped`), it gets no shorter, and once it is grown it
never changes (`Branch.ExtendsTo`). Frames do nothing else to a row of nodes
(`Plant.Tended.extendsTo`).

That decides what is seen. A node is shown while the branches above it are grown, but perhaps the
nearest, and a branch that was grown once is grown for ever (`Row.IsShown.extend`). So what is shown
in one frame is shown in all later ones. `Plant.Reachable.growth_monotone` puts this together for
all frames of reachable plants, where every frame may have parameters of its own.
-/

set_option autoImplicit false

namespace PlantGrowth

open Scalar

/-! ## Branches -/

namespace Branch

variable {b b' b'' : Branch}

/-- If the final length of the branch is not negative, the branch is between zero and that. -/
def Clamped (b : Branch) : Prop :=
  0 ≤ b.finalLength → 0 ≤ b.currentLength ∧ b.currentLength ≤ b.finalLength

/-- A new branch has no length yet. -/
theorem clamped_sprout (finalLength : Scalar) (colour leaf : Rgba) :
    (sprout finalLength colour leaf).Clamped :=
  fun hfinal => ⟨le_self (by decide), hfinal⟩

/-- A branch stops growing at its final length. -/
theorem Clamped.grow (h : b.Clamped) (increment : Scalar) : (b.grow increment).Clamped := by
  intro hfinal
  rw [finalLength_grow] at hfinal
  obtain ⟨hnonneg, hle⟩ := h hfinal
  exact grow_bounds hnonneg hle increment

/-- A grown branch has its final length. -/
theorem Clamped.beq_of_grown (h : b.Clamped) (hfinal : 0 ≤ b.finalLength)
    (hgrown : b.isGrown = true) : (b.currentLength == b.finalLength) = true := by
  have hge := le_iff.mp (of_decide_eq_true hgrown)
  have hle := le_iff.mp (h hfinal).2
  rw [beq_iff]
  omega

/-- The second branch is the first after some increments: it has the same final length, it is no
shorter, and it is the same if the first was grown. -/
structure ExtendsTo (b b' : Branch) : Prop where
  finalLength_eq : b'.finalLength = b.finalLength
  le : 0 ≤ b.finalLength → b.currentLength ≤ b'.currentLength
  eq_of_grown : b.isGrown = true → b' = b

theorem Clamped.extendsTo_self (h : b.Clamped) : b.ExtendsTo b where
  finalLength_eq := rfl
  le hfinal := le_self (nonneg_iff.mp (h hfinal).1).2
  eq_of_grown _ := rfl

/-- Growing only ever makes a branch longer, up to its final length. -/
theorem Clamped.extendsTo_grow (h : b.Clamped) (increment : Scalar) :
    b.ExtendsTo (b.grow increment) where
  finalLength_eq := b.finalLength_grow increment
  le hfinal := b.le_grow (h hfinal).1 (h hfinal).2 increment
  eq_of_grown hgrown := grow_grown hgrown increment

/-- Extension over two stretches of time is extension over both. -/
theorem ExtendsTo.trans (h : b.ExtendsTo b') (h' : b'.ExtendsTo b'') : b.ExtendsTo b'' where
  finalLength_eq := h'.finalLength_eq.trans h.finalLength_eq
  le hfinal := le_trans (h.le hfinal) (h'.le (by rwa [h.finalLength_eq]))
  eq_of_grown hgrown := by
    have hsame := h.eq_of_grown hgrown
    rw [hsame] at h'
    exact h'.eq_of_grown hgrown

end Branch

/-! ## Nodes -/

namespace Node

variable {n n' n'' : Node}

/-- The second node is the first, or the first with its branch extended. -/
inductive ExtendsTo (n : Node) : Node → Prop
  | same : ExtendsTo n n
  | branch {b b' : Branch} : n.kind = .branch b → b.ExtendsTo b' →
      ExtendsTo n { n with kind := .branch b' }

/-- Nodes extend over two stretches of time as their branches do. -/
theorem ExtendsTo.trans (h : n.ExtendsTo n') (h' : n'.ExtendsTo n'') : n.ExtendsTo n'' := by
  cases h with
  | same => exact h'
  | branch hkind hb =>
    cases h' with
    | same => exact .branch hkind hb
    | branch hkind' hb' =>
      cases hkind'
      exact .branch hkind (hb.trans hb')

theorem ExtendsTo.id_eq (h : n.ExtendsTo n') : n'.id = n.id := by
  cases h <;> rfl

theorem ExtendsTo.entry_eq (h : n.ExtendsTo n') : n'.entry = n.entry := by
  cases h <;> rfl

theorem ExtendsTo.exit_eq (h : n.ExtendsTo n') : n'.exit = n.exit := by
  cases h <;> rfl

/-- A node stays what it is while it extends. -/
theorem ExtendsTo.isSome_branch? (h : n.ExtendsTo n') :
    n'.branch?.isSome = n.branch?.isSome := by
  cases h with
  | same => rfl
  | branch hkind _ =>
    rw [branch?_of_kind hkind]
    rfl

/-- A branch becomes one that it extends to. -/
theorem ExtendsTo.exists_branch (h : n.ExtendsTo n') {b : Branch} (hb : n.branch? = some b)
    (hclamped : b.Clamped) : ∃ b', n'.branch? = some b' ∧ b.ExtendsTo b' := by
  cases h with
  | same => exact ⟨b, hb, hclamped.extendsTo_self⟩
  | @branch before after hkind hext =>
    rw [branch?_of_kind hkind] at hb
    cases hb
    exact ⟨after, rfl, hext⟩

/-- What holds back nothing never changes. -/
theorem ExtendsTo.eq_of_grown (h : n.ExtendsTo n')
    (hgrown : ∀ b, n.branch? = some b → b.isGrown = true) : n' = n := by
  cases h with
  | same => rfl
  | branch hkind hb =>
    rw [hb.eq_of_grown (hgrown _ (branch?_of_kind hkind)), ← hkind]

/-- A frame extends the branch of a node, if it has one. -/
theorem Grows.extendsTo {σ : Type} [RandomSource σ] {m : Moment} {entry : Joint}
    {source source' : σ} {g : Grown} (h : n.Grows m entry source g source')
    (hn : ∀ b, n.kind = .branch b → b.Clamped) : n.ExtendsTo g.node := by
  cases h with
  | placeholder _ => exact .same
  | budHidden _ _ _ => exact .same
  | budShown _ _ => exact .same
  | waiting _ _ => exact .same
  | @reached before after _ _ _ hkind _ hadvance _ _ =>
    rcases Branch.advance_eq_ok hadvance with rfl | ⟨increment, rfl⟩
    · rw [← hkind]
      exact .same
    · exact .branch hkind ((hn before hkind).extendsTo_grow increment)

end Node

/-! ## Rows -/

/-- Rows related item by item through a row between them. -/
theorem forall₂_trans {α β γ : Type} {R : α → β → Prop} {S : β → γ → Prop} {T : α → γ → Prop}
    (hT : ∀ {a : α} {b : β} {c : γ}, R a b → S b c → T a c) {as : List α} {bs : List β}
    {cs : List γ} (h : List.Forall₂ R as bs) (h' : List.Forall₂ S bs cs) :
    List.Forall₂ T as cs := by
  induction h generalizing cs with
  | nil =>
    cases h'
    exact .nil
  | cons ha _ ih =>
    cases h' with
    | cons hb hrest => exact .cons (hT ha hb) (ih hrest)

namespace Row

variable {root : JointId} {row row' : List Node} {n n' : Node}

/-- What is above a node after the frames was above it before. -/
theorem exists_above (hrow : List.Forall₂ Node.ExtendsTo row row') (hn : n ∈ row)
    (hext : n.ExtendsTo n') {a' : Node} (ha : Above row' a' n') :
    ∃ a, a.ExtendsTo a' ∧ Above row a n := by
  -- from the node upwards, one parent after the other
  induction ha using Relation.TransGen.head_induction_on with
  | @single a' hparent =>
    obtain ⟨a, ha, haext⟩ := exists_of_forall₂ hrow hparent.1
    refine ⟨a, haext, .single ⟨ha, hn, ?_⟩⟩
    rw [← hext.entry_eq, ← haext.exit_eq]
    exact hparent.2.2
  | @head a' c' hparent _ ih =>
    obtain ⟨c, hcext, hc⟩ := ih
    obtain ⟨a, ha, haext⟩ := exists_of_forall₂ hrow hparent.1
    refine ⟨a, haext, .head ⟨ha, mem_of_above hc, ?_⟩ hc⟩
    rw [← hcext.entry_eq, ← haext.exit_eq]
    exact hparent.2.2

/-- Branches above a node that have grown out stay grown out. -/
theorem AboveGrown.extend (h : AboveGrown row n) (hrow : List.Forall₂ Node.ExtendsTo row row')
    (hn : n ∈ row) (hext : n.ExtendsTo n') : AboveGrown row' n' := by
  -- a branch above the node was above it before, grown, and has not changed since
  intro a' b' ha' hb'
  obtain ⟨a, haext, ha⟩ := exists_above hrow hn hext ha'
  obtain rfl := haext.eq_of_grown fun b hb => h a b ha hb
  exact h a' b' ha hb'

/-- Branches above a node that have started to grow go on. -/
theorem AboveStarted.extend (h : AboveStarted row n) (hd : DistinctExits root row)
    (hrow : List.Forall₂ Node.ExtendsTo row row') (hn : n ∈ row) (hext : n.ExtendsTo n') :
    AboveStarted row' n' := by
  intro a' b' ha' hb'
  obtain ⟨a, haext, ha⟩ := exists_above hrow hn hext ha'
  have hsome : a.branch?.isSome = true := by
    rw [← haext.isSome_branch?, hb']
    rfl
  obtain ⟨b, hb⟩ := Option.isSome_iff_exists.mp hsome
  rcases h a b ha hb with hgrown | hnearest
  · left
    obtain rfl := haext.eq_of_grown fun c hc => by
      rw [hb] at hc
      cases hc
      exact hgrown
    rw [hb] at hb'
    cases hb'
    exact hgrown
  · right
    refine ⟨ha', by rw [hb']; rfl, ?_⟩
    -- a branch between the two would have been between them before
    intro c' hac hcn
    obtain ⟨c, hcext, hc⟩ := exists_above hrow hn hext hcn
    obtain ⟨d, hdext, hd'⟩ := exists_above hrow (mem_of_above hc) hcext hac
    have hexit : d.exit = a.exit := by rw [← hdext.exit_eq, haext.exit_eq]
    obtain rfl := hd.eq_of_exit_eq (mem_of_above hd') (mem_of_above ha) hexit
    have hnone := hcext.isSome_branch?
    rw [hnearest.2.2 c hd' hc] at hnone
    exact Option.not_isSome_iff_eq_none.mp (by rw [hnone]; simp)

/-- A drawing of the row has a mark for the node. -/
def IsShown (row : List Node) (n : Node) : Prop :=
  (∃ b, n.kind = .branch b) ∧ AboveGrown row n ∨
    (∃ colour, n.kind = .bud colour) ∧ AboveStarted row n

/-- A drawing has a mark for exactly the nodes that are shown. -/
theorem IsDrawing.isSome_iff {origin : Vec} {drawn : Node → Option Mark}
    (h : IsDrawing origin row drawn) (hn : n ∈ row) :
    (drawn n).isSome = true ↔ IsShown row n := by
  cases hkind : n.kind with
  | placeholder => simp [IsShown, hkind, h.placeholder n hn hkind]
  | bud colour =>
    by_cases hstarted : AboveStarted row n
    · obtain ⟨d, hdrawn, -⟩ := h.bud_shown n hn colour hkind hstarted
      simp [IsShown, hkind, hdrawn, hstarted]
    · simp [IsShown, hkind, h.bud_hidden n hn colour hkind hstarted, hstarted]
  | branch b =>
    by_cases hgrown : AboveGrown row n
    · obtain ⟨start, finish, width, colour, leaf, hdrawn, -⟩ := h.branch_shown n hn b hkind hgrown
      simp [IsShown, hkind, hdrawn, hgrown]
    · simp [IsShown, hkind, h.branch_hidden n hn b hkind hgrown, hgrown]

/-- What is shown stays shown. -/
theorem IsShown.extend (h : IsShown row n) (hd : DistinctExits root row)
    (hrow : List.Forall₂ Node.ExtendsTo row row') (hn : n ∈ row) (hext : n.ExtendsTo n') :
    IsShown row' n' := by
  rcases h with ⟨⟨b, hb⟩, hgrown⟩ | ⟨⟨colour, hcolour⟩, hstarted⟩
  · refine Or.inl ⟨?_, hgrown.extend hrow hn hext⟩
    cases hext with
    | same => exact ⟨b, hb⟩
    | branch _ _ => exact ⟨_, rfl⟩
  · refine Or.inr ⟨?_, hstarted.extend hd hrow hn hext⟩
    cases hext with
    | same => exact ⟨colour, hcolour⟩
    | branch hkind _ =>
      rw [hcolour] at hkind
      cases hkind

end Row

/-- A row of nodes that hold back nothing takes nothing from the random source in a frame. -/
theorem Filmed.source_eq {σ : Type} [RandomSource σ] {m : Moment} {k : Skeleton} {row : List Node}
    {results : List (Node × Option Mark)} {source source' : σ}
    (h : Filmed m k row source results source') (hrow : ∀ n ∈ row, ¬ n.IsGrowing) :
    source' = source := by
  induction h with
  | nil => rfl
  | @cons n result row results e x source source₁ source₂ _ _ hgrows _ ih =>
    rw [List.forall_mem_cons] at hrow
    have hleaf : result.2.any Mark.hasLeaf = false := by
      rw [← Bool.not_eq_true]
      exact fun hleaf => hrow.1 (hgrows.leaf_iff.mp hleaf).1
    rw [ih hrow.2, (hgrows.same_of_no_leaf hleaf).2]

/-! ## Plants -/

namespace Plant

variable {origin : Vec} {p q r : Plant}

/-- All branches of the plant are clamped. -/
def Clamped (p : Plant) : Prop := ∀ n ∈ p.nodes, ∀ b, n.kind = .branch b → b.Clamped

/-- Other parameters do not touch the branches. -/
theorem Clamped.withParams (h : p.Clamped) (params : GrowthParams) :
    ({ p with params } : Plant).Clamped :=
  fun n hn => h n hn

/-- A frame leaves no branch longer than its final length. -/
theorem Clamped.tick {σ : Type} [RandomSource σ] {time : Scalar} {noise : Noise}
    {marks : List Mark} {s t : Surroundings σ} (hp : p.Clamped)
    (h : p.tick time noise s = .ok (q, marks) t) : q.Clamped :=
  forall_branch_of_tick (Q := Branch.Clamped) (fun hb => hb.grow) hp h

/-- In every reachable plant all branches are clamped. -/
theorem Reachable.clamped (hp : Reachable origin p) : p.Clamped := by
  have hyields : ∀ {σ : Type} [RandomSource σ] (params : GrowthParams),
      Turtle.Yields σ params fun kind => ∀ b, kind = .branch b → b.Clamped :=
    fun params => Turtle.yields_of_sprout fun colour leaf _ => Branch.clamped_sprout _ colour leaf
  induction hp with
  | sprout h => exact kinds_of_sprout (hyields _) h
  | generate hp h ih => exact kinds_of_generate (hyields _) hp ih h
  | tick _ h ih => exact ih.tick h

/-- The plant after any number of frames, whatever their parameters, times, noises and sources. -/
inductive Tended (p : Plant) : Plant → Prop
  | refl : Tended p p
  | tick {σ : Type} [RandomSource σ] {q r : Plant} {params : GrowthParams} {time : Scalar}
      {noise : Noise} {marks : List Mark} {s t : Surroundings σ} : Tended p q →
      ({ q with params } : Plant).tick time noise s = .ok (r, marks) t → Tended p r

theorem Sound.withParams (h : Sound origin p) (params : GrowthParams) :
    Sound origin { p with params } :=
  ⟨h.rooted, h.ne_nil, h.flags⟩

/-- Other parameters and frames keep a plant sound. -/
theorem Tended.sound (h : p.Tended q) (hp : Sound origin p) : Sound origin q := by
  induction h with
  | refl => exact hp
  | tick _ htick ih => exact (ih.withParams _).tick htick

/-- Other parameters and frames leave no branch too long. -/
theorem Tended.clamped (h : p.Tended q) (hp : p.Clamped) : q.Clamped := by
  induction h with
  | refl => exact hp
  | tick _ htick ih => exact (ih.withParams _).tick htick

/-- A frame extends branches and does nothing else to the nodes. -/
theorem Clamped.extendsTo_of_tick {σ : Type} [RandomSource σ] {time : Scalar} {noise : Noise}
    {marks : List Mark} {s t : Surroundings σ} (hp : p.Clamped)
    (h : p.tick time noise s = .ok (q, marks) t) :
    List.Forall₂ Node.ExtendsTo p.nodes q.nodes := by
  have hgrows := (List.forall₂_and_left p.nodes q.nodes).mpr ⟨fun n hn => hp n hn, grows_of_tick h⟩
  refine hgrows.imp ?_
  rintro n n' ⟨hn, m, e, x, mark, source, source', hgrew⟩
  exact hgrew.extendsTo hn

/-- So do any number of frames. -/
theorem Tended.extendsTo (h : p.Tended q) (hp : p.Clamped) :
    List.Forall₂ Node.ExtendsTo p.nodes q.nodes := by
  induction h with
  | refl => exact List.forall₂_same.mpr fun n _ => .same
  | tick hticked htick ih =>
    have hlast := ((hticked.clamped hp).withParams _).extendsTo_of_tick htick
    exact forall₂_trans (fun hn hn' => hn.trans hn') ih hlast

section Frames

variable {σ : Type} [RandomSource σ]

/-- A frame of a sound plant has marks for the nodes that are shown. -/
theorem Sound.drawn_of_frame {shot : Shot} {drawn : List (Option Mark)} {s t : Surroundings σ}
    (hp : Sound origin p) (h : p.frame shot s = .ok (q, drawn) t) :
    (∃ root, Row.DistinctExits root q.nodes) ∧
      List.Forall₂ (fun n mark => mark.isSome = true ↔ Row.IsShown q.nodes n) q.nodes drawn := by
  simp only [frame, Outcome.bind_eq_ok, Outcome.pure_eq_ok, Prod.mk.injEq] at h
  obtain ⟨⟨results, k⟩, u, hframe, ⟨rfl, rfl⟩, rfl⟩ := h
  obtain ⟨source, hresults, -⟩ := Garden.onSkeleton_eq_ok.mp hframe
  obtain ⟨root, hroot⟩ := hp.rooted
  have hstart : Rooted origin root ([] ++ p.nodes) p.skeleton p.nextId := hroot
  obtain ⟨hrooted, hshown⟩ := shown_of_mapM hresults hstart .nil
  rw [List.nil_append] at hrooted hshown
  have hhandles : List.Forall₂ (fun n n' : Node => n'.entry = n.entry ∧ n'.exit = n.exit)
      p.nodes (results.map (·.1)) := by
    rw [List.forall₂_map_right_iff]
    refine (OnSite.grows_of_mapM hresults).imp ?_
    rintro n result ⟨_, _, _, _, hgrows⟩
    exact hgrows.handles_eq
  have hafter := hrooted.congr_handles hhandles
  have hdrawing := isDrawing_of_shown hafter hshown
  refine ⟨⟨root, hafter.distinct⟩, ?_⟩
  rw [List.forall₂_map_left_iff, List.forall₂_map_right_iff, List.forall₂_same]
  intro result hr
  rw [← markOf_of_mem hafter.distinct hr]
  exact hdrawing.isSome_iff (List.mem_map_of_mem hr)

theorem tick_of_frame {shot : Shot} {drawn : List (Option Mark)} {s t : Surroundings σ}
    (h : p.frame shot s = .ok (q, drawn) t) :
    p.tick shot.time shot.noise s = .ok (q, drawn.reduceOption) t := by
  rw [tick_eq_frame, Outcome.map_eq_ok]
  exact ⟨(q, drawn), h, rfl⟩

/-- A frame of a fully grown plant leaves the surroundings as they are. -/
theorem Sound.tick_idle {time : Scalar} {noise : Noise} {marks : List Mark} {s t : Surroundings σ}
    (hp : Sound origin p) (hgrown : p.isFullyGrown = true)
    (h : p.tick time noise s = .ok (q, marks) t) : t = s := by
  obtain ⟨root, hroot⟩ := hp.rooted
  obtain ⟨nodes, k, source, hgrow, -, rfl⟩ := tick_eq_ok h
  obtain ⟨results, -, -, hfilmed, -⟩ := filmed_of_growAll hgrow hroot
  have hsource : source = s.source := hfilmed.source_eq fun n hn =>
    Node.not_isGrowing_iff.mpr (isFullyGrown_iff.mp hgrown n hn)
  rw [hsource]

end Frames

/-- A plant tended over two stretches of time is tended over both. -/
theorem Tended.trans (h : p.Tended q) (h' : q.Tended r) : p.Tended r := by
  induction h' with
  | refl => exact h
  | tick _ htick ih => exact .tick ih htick

/-- A plant that has grown out stays so, whatever parameters it is given. -/
theorem Tended.isFullyGrown (h : p.Tended q) (hp : p.Clamped) (hgrown : p.isFullyGrown = true) :
    q.isFullyGrown = true := by
  rw [isFullyGrown_iff] at hgrown ⊢
  intro n' hn' b' hb'
  obtain ⟨n, hn, hext⟩ := exists_of_forall₂ (h.extendsTo hp) hn'
  obtain rfl := hext.eq_of_grown fun b hb => hgrown n hn b hb
  exact hgrown n' hn b' hb'

/-- What is shown in a frame is shown in every later one. -/
theorem Tended.drawn_mono {σ τ : Type} [RandomSource σ] [RandomSource τ] {shot shot' : Shot}
    {drawn drawn' : List (Option Mark)} {s s' : Surroundings σ} {t t' : Surroundings τ}
    {params params' : GrowthParams} {r' : Plant} (hp : Sound origin p) (hclamped : p.Clamped)
    (h : ({ p with params } : Plant).frame shot s = .ok (q, drawn) s') (hr : q.Tended r)
    (h' : ({ r with params := params' } : Plant).frame shot' t = .ok (r', drawn') t') :
    List.Forall₂ (fun mark mark' => mark.isSome = true → mark'.isSome = true) drawn drawn' := by
  have hq : p.Tended q := .tick .refl (tick_of_frame h)
  obtain ⟨⟨root, hd⟩, hdrawn⟩ := (hp.withParams params).drawn_of_frame h
  have hlater := hr.sound (hq.sound hp)
  obtain ⟨-, hdrawn'⟩ := (hlater.withParams params').drawn_of_frame h'
  -- from the row of the first frame to that of the last, which may have any number between them
  have hext : List.Forall₂ Node.ExtendsTo q.nodes r'.nodes :=
    (Tended.tick hr (tick_of_frame h')).extendsTo (hq.clamped hclamped)
  have hshown : List.Forall₂ (fun mark n' => mark.isSome = true → Row.IsShown r'.nodes n')
      drawn r'.nodes := by
    have hmem := (List.forall₂_and_left q.nodes r'.nodes).mpr ⟨fun n hn => hn, hext⟩
    refine forall₂_trans ?_ hdrawn.flip hmem
    rintro mark n n' hmark ⟨hn, hnext⟩ hsome
    exact (hmark.mp hsome).extend hd hext hn hnext
  exact forall₂_trans (fun hn hmark hsome => hmark.mpr (hn hsome)) hshown hdrawn'

/-- Growth goes one way, whatever the frames of a reachable plant are like. A branch whose final
length is not negative is between zero and that after every frame and never gets shorter, and a
grown branch stays as it is, at its final length. A node that has a mark in one frame has one in
every later frame. Once the plant is fully grown it stays so, and no frame takes anything from the
random source. -/
theorem Reachable.growth_monotone (hp : Reachable origin p) (hq : p.Tended q) :
    (∀ r, q.Tended r → List.Forall₂ (fun n n' : Node => n'.id = n.id ∧
      ∀ b, n.branch? = some b → ∃ b', n'.branch? = some b' ∧ b'.finalLength = b.finalLength ∧
        (0 ≤ b.finalLength → 0 ≤ b'.currentLength ∧ b'.currentLength ≤ b'.finalLength ∧
          b.currentLength ≤ b'.currentLength) ∧
        (b.isGrown = true → b' = b ∧
          (0 ≤ b.finalLength → (b.currentLength == b.finalLength) = true))) q.nodes r.nodes) ∧
    (∀ (σ τ : Type) [RandomSource σ] [RandomSource τ] (params params' : GrowthParams)
      (shot shot' : Shot) (s s' : Surroundings σ) (t t' : Surroundings τ) (q' r r' : Plant)
      (drawn drawn' : List (Option Mark)),
      ({ q with params } : Plant).frame shot s = .ok (q', drawn) s' → q'.Tended r →
      ({ r with params := params' } : Plant).frame shot' t = .ok (r', drawn') t' →
      List.Forall₂ (fun mark mark' => mark.isSome = true → mark'.isSome = true) drawn drawn') ∧
    (q.isFullyGrown = true → ∀ r, q.Tended r → r.isFullyGrown = true ∧
      ∀ (σ : Type) [RandomSource σ] (params : GrowthParams) (time : Scalar) (noise : Noise)
        (r' : Plant) (marks : List Mark) (s t : Surroundings σ),
        ({ r with params } : Plant).tick time noise s = .ok (r', marks) t → t = s) := by
  have hsound : Sound origin q := hq.sound hp.sound
  have hclamped : q.Clamped := hq.clamped hp.clamped
  refine ⟨?_, ?_, ?_⟩
  · intro r hr
    -- both rows are clamped and the later one extends the earlier one, node by node
    have hext := (List.forall₂_and_left q.nodes r.nodes).mpr
      ⟨fun n hn => hclamped n hn, hr.extendsTo hclamped⟩
    have hmem := (List.forall₂_and_left r.nodes q.nodes).mpr
      ⟨fun n' hn' => hr.clamped hclamped n' hn', hext.flip⟩
    refine hmem.flip.imp ?_
    rintro n n' ⟨hn', hn, hnext⟩
    refine ⟨hnext.id_eq, fun b hb => ?_⟩
    have hbefore : b.Clamped := hn b (Node.kind_of_branch?_some hb)
    obtain ⟨b', hb', hbext⟩ := hnext.exists_branch hb hbefore
    have hafter : b'.Clamped := hn' b' (Node.kind_of_branch?_some hb')
    refine ⟨b', hb', hbext.finalLength_eq, ?_, ?_⟩
    · intro hfinal
      obtain ⟨hnonneg, hle⟩ := hafter (by rwa [hbext.finalLength_eq])
      exact ⟨hnonneg, hle, hbext.le hfinal⟩
    · intro hgrown
      exact ⟨hbext.eq_of_grown hgrown, fun hfinal => hbefore.beq_of_grown hfinal hgrown⟩
  · intro σ τ _ _ params params' shot shot' s s' t t' q' r r' drawn drawn' h hr h'
    exact Tended.drawn_mono hsound hclamped h hr h'
  · intro hgrown r hr
    have hlater : r.isFullyGrown = true := hr.isFullyGrown hclamped hgrown
    refine ⟨hlater, ?_⟩
    intro σ _ params time noise r' marks s t htick
    exact ((hr.sound hsound).withParams params).tick_idle hlater htick

/-- Parameters of a growth that is done at once. -/
def hasty : GrowthParams := { growthSpeed := 1 / 0 }

/-- Parameters with a speed that is no number. -/
def lost : GrowthParams := { growthSpeed := 0 / 0 }

/-- A frame in still air. -/
def calm : Shot := ⟨0, fun _ _ _ => .ok 0⟩

/-- The sapling is grown up hastily in two frames and then left alone: what was shown in the first
of them is shown in the third, and from then on nothing is drawn from the random source. -/
theorem Reachable.growth_monotone_sapling :
    ∃ (p q r r' : Plant) (drawn drawn' : List (Option Mark)) (marks : List Mark)
      (t t₁ t₂ t₃ : Surroundings Reel),
    sapling ⟨⟨#[0], 0⟩, #[]⟩ = .ok p t ∧
    ({ p with params := hasty } : Plant).frame calm t = .ok (q, drawn) t₁ ∧
    ({ q with params := hasty } : Plant).tick calm.time calm.noise t₁ = .ok (r, marks) t₂ ∧
    ({ r with params := lost } : Plant).frame calm t₂ = .ok (r', drawn') t₃ ∧
    p.isFullyGrown = false ∧ r.isFullyGrown = true ∧ (∃ mark ∈ drawn, mark.isSome = true) ∧
    List.Forall₂ (fun n n' : Node => n'.id = n.id ∧
      ∀ b, n.branch? = some b → ∃ b', n'.branch? = some b' ∧ b'.finalLength = b.finalLength ∧
        (0 ≤ b.finalLength → 0 ≤ b'.currentLength ∧ b'.currentLength ≤ b'.finalLength ∧
          b.currentLength ≤ b'.currentLength) ∧
        (b.isGrown = true → b' = b ∧
          (0 ≤ b.finalLength → (b.currentLength == b.finalLength) = true))) p.nodes r.nodes ∧
    List.Forall₂ (fun mark mark' => mark.isSome = true → mark'.isSome = true) drawn drawn' ∧
    ∀ r'', r.Tended r'' → r''.isFullyGrown = true ∧
      ∀ (σ : Type) [RandomSource σ] (params : GrowthParams) (time : Scalar) (noise : Noise)
        (u : Plant) (marks : List Mark) (s t : Surroundings σ),
        ({ r'' with params } : Plant).tick time noise s = .ok (u, marks) t → t = s := by
  have hok : Outcome.isOk
      (fun x => !x.1.isFullyGrown && x.2.2.1.1.isFullyGrown && x.2.1.2.any Option.isSome) ((do
        let p ← sapling
        let first ← ({ p with params := hasty } : Plant).frame calm
        let second ← ({ first.1 with params := hasty } : Plant).tick calm.time calm.noise
        let third ← ({ second.1 with params := lost } : Plant).frame calm
        return (p, first, second, third) : Garden Reel (Plant × (Plant × List (Option Mark)) ×
          (Plant × List Mark) × Plant × List (Option Mark))) ⟨⟨#[0], 0⟩, #[]⟩) = true := by
    decide +kernel
  obtain ⟨x, t₃, h, hx⟩ := Outcome.exists_of_isOk hok
  simp only [Outcome.bind_eq_ok, Outcome.pure_eq_ok] at h
  obtain ⟨p, t, hp, ⟨q, drawn⟩, t₁, hframe, ⟨r, marks⟩, t₂, htick, ⟨r', drawn'⟩, t₃, hlast, rfl,
    rfl⟩ := h
  simp only [Bool.and_eq_true, Bool.not_eq_true', List.any_eq_true] at hx
  obtain ⟨⟨hgrowing, hgrown⟩, hshown⟩ := hx
  have hreach := reachable_of_sapling hp
  have hqr : q.Tended r := .tick .refl htick
  have hpr : p.Tended r := Tended.trans (.tick .refl (tick_of_frame hframe)) hqr
  obtain ⟨hlengths, hmarks, -⟩ := hreach.growth_monotone .refl
  obtain ⟨-, -, hidle⟩ := hreach.growth_monotone hpr
  exact ⟨p, q, r, r', drawn, drawn', marks, t, t₁, t₂, _, hp, hframe, htick, hlast, hgrowing,
    hgrown, hshown, hlengths r hpr,
    hmarks Reel Reel hasty lost calm calm t t₁ t₂ _ q r r' drawn drawn' hframe hqr hlast,
    hidle hgrown⟩

end Plant

end PlantGrowth
