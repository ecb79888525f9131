import PlantGrowth.Proofs.Rooted

/-!
# What a frame leaves behind

`Node.Grows` lists the ways in which a node takes part in a frame. Every node writes its exit
joint once and reads its entry joint before, and in a rooted row no later node writes either of
the two. So the skeleton after the frame still has, for every node, the joints with which the
node took part (`Shown`, `shown_of_growAll`); all that is proved of frames is read off this.
-/

set_option autoImplicit false

namespace PlantGrowth

/-! ## A node in a frame -/

namespace Branch

variable {σ : Type} [RandomSource σ]

/-- Sway turns the exit joint and moves it, and changes nothing else. -/
theorem sway_eq_ok {m : Moment} {depth : UInt32} {entry exit exit' : Joint} {length : Scalar}
    (h : sway m depth entry exit length = .ok exit') :
    exit'.ready = exit.ready ∧ exit'.extending = exit.extending := by
  unfold sway at h
  split at h
  · cases h
    exact ⟨rfl, rfl⟩
  · simp only [Outcome.except_bind_eq_ok, Outcome.except_pure_eq_ok] at h
    obtain ⟨angle, -, rfl⟩ := h
    exact ⟨rfl, rfl⟩

/-- A branch waits, without a draw, until its entry is ready. -/
theorem advance_of_not_ready {m : Moment} {entry : Joint} (h : entry.ready = false) (b : Branch)
    (source : σ) : b.advance m entry source = .ok (b, source) := by
  simp [advance, h]

end Branch

namespace Node

variable {σ : Type} [RandomSource σ]

theorem kind_of_branch?_some {n : Node} {b : Branch} (h : n.branch? = some b) :
    n.kind = .branch b := by
  cases hkind : n.kind with
  | placeholder => simp [branch?, hkind] at h
  | bud colour => simp [branch?, hkind] at h
  | branch c =>
    simp only [branch?, hkind, Option.some.injEq] at h
    rw [h]

/-- A branch lets growth pass once it is grown. -/
theorem carry_of_branch?_some {n : Node} {b : Branch} (h : n.branch? = some b) (entry : Joint) :
    (n.carry entry).ready = (entry.ready && b.isGrown) ∧
      (n.carry entry).extending = (entry.ready && !b.isGrown) := by
  simp [carry, Kind.carry, kind_of_branch?_some h]

/-- A node without length passes everything on but the direction. -/
theorem carry_of_branch?_none {n : Node} (h : n.branch? = none) (entry : Joint) :
    (n.carry entry).position = entry.position ∧ (n.carry entry).ready = entry.ready ∧
      (n.carry entry).extending = entry.extending := by
  cases hkind : n.kind with
  | placeholder => simp [carry, Kind.carry, hkind]
  | bud colour => simp [carry, Kind.carry, hkind]
  | branch c => simp [branch?, hkind] at h

/-- The ways in which a node takes part in a frame: what it does on an entry joint with a source,
and the source afterwards. -/
inductive Grows (m : Moment) (n : Node) (entry : Joint) (source : σ) : Grown → σ → Prop
  | placeholder : n.kind = .placeholder → Grows m n entry source ⟨n, n.carry entry, none⟩ source
  | budHidden {colour : Rgba} : n.kind = .bud colour → entry.extending = false →
      entry.ready = false → Grows m n entry source ⟨n, n.carry entry, none⟩ source
  | budShown {colour : Rgba} : n.kind = .bud colour →
      entry.extending = true ∨ entry.ready = true →
      Grows m n entry source ⟨n, n.carry entry,
        some (.dot ⟨entry.position, m.params.leafSize / 2, colour⟩)⟩ source
  | waiting {b : Branch} : n.kind = .branch b → entry.ready = false →
      Grows m n entry source ⟨n, n.carry entry, none⟩ source
  | reached {before b : Branch} {source' : σ} {exit : Joint} {leaf : Option Dot} :
      n.kind = .branch before → entry.ready = true →
      before.advance m entry source = .ok (b, source') →
      Branch.sway m n.depth entry (({ n with kind := .branch b } : Node).carry entry)
        b.currentLength = .ok exit →
      leaf = (if before.isGrown then none
        else some ⟨exit.position, m.params.leafSize / 2, b.leafColour⟩) →
      Grows m n entry source ⟨{ n with kind := .branch b }, exit,
        some (.segment entry.position exit.position
          (m.params.branchWidth * taper n.depth m.age) b.colour leaf)⟩ source'

/-- What a node does in a frame is one of the cases of `Node.Grows`. -/
theorem grows_of_grow {m : Moment} {n : Node} {entry : Joint} {source source' : σ} {g : Grown}
    (h : n.grow m entry source = .ok (g, source')) : n.Grows m entry source g source' := by
  unfold grow at h
  split at h
  · rename_i hkind
    cases h
    exact .placeholder hkind
  · rename_i colour hkind
    cases h
    cases hext : entry.extending with
    | true => exact .budShown hkind (Or.inl hext)
    | false =>
      cases hready : entry.ready with
      | true => exact .budShown hkind (Or.inr hready)
      | false => exact .budHidden hkind hext hready
  · rename_i before hkind
    simp only [growBranch, Outcome.except_bind_eq_ok] at h
    obtain ⟨⟨b, source₁⟩, hadvance, h⟩ := h
    cases hready : entry.ready with
    | false =>
      -- a branch that growth has not reached neither advances nor moves
      rw [Branch.advance_of_not_ready hready] at hadvance
      cases hadvance
      simp only [hready, Bool.not_false, if_true, Outcome.except_pure_eq_ok, Prod.mk.injEq] at h
      obtain ⟨rfl, rfl⟩ := h
      have hn : ({ n with kind := .branch before } : Node) = n := by rw [← hkind]
      rw [hn]
      exact .waiting hkind hready
    | true =>
      simp only [hready, Bool.not_true, Bool.false_eq_true, if_false, Outcome.except_bind_eq_ok,
        Outcome.except_pure_eq_ok, Prod.mk.injEq] at h
      obtain ⟨exit, hsway, rfl, rfl⟩ := h
      exact .reached hkind hready hadvance hsway rfl

namespace Grows

variable {m : Moment} {n : Node} {entry : Joint} {source source' : σ} {g : Grown}

/-- A frame does not touch the handles of a node. -/
theorem handles_eq (h : n.Grows m entry source g source') :
    g.node.entry = n.entry ∧ g.node.exit = n.exit := by
  cases h <;> exact ⟨rfl, rfl⟩

/-- Growth passes at the exit as it would in still air. -/
theorem flags_eq (h : n.Grows m entry source g source') :
    g.exit.ready = (g.node.carry entry).ready ∧
      g.exit.extending = (g.node.carry entry).extending := by
  cases h with
  | placeholder _ => exact ⟨rfl, rfl⟩
  | budHidden _ _ _ => exact ⟨rfl, rfl⟩
  | budShown _ _ => exact ⟨rfl, rfl⟩
  | waiting _ _ => exact ⟨rfl, rfl⟩
  | reached _ _ _ hsway _ => exact Branch.sway_eq_ok hsway

/-- A node without length ends where it starts. -/
theorem position_eq (h : n.Grows m entry source g source') (hnone : g.node.branch? = none) :
    g.exit.position = entry.position := by
  cases h with
  | placeholder _ => exact (carry_of_branch?_none hnone entry).1
  | budHidden _ _ _ => exact (carry_of_branch?_none hnone entry).1
  | budShown _ _ => exact (carry_of_branch?_none hnone entry).1
  | waiting _ _ => exact (carry_of_branch?_none hnone entry).1
  | reached _ _ _ _ _ => cases hnone

/-- A placeholder is never seen. -/
theorem mark_placeholder (h : n.Grows m entry source g source')
    (hkind : g.node.kind = .placeholder) : g.mark = none := by
  cases h with
  | placeholder _ => rfl
  | budHidden _ _ _ => rfl
  | budShown hbud _ =>
    rw [hbud] at hkind
    cases hkind
  | waiting _ _ => rfl
  | reached _ _ _ _ _ => cases hkind

/-- A bud is drawn at its place once the branch before it has started. -/
theorem mark_bud (h : n.Grows m entry source g source') {colour : Rgba}
    (hkind : g.node.kind = .bud colour) :
    if entry.extending = true ∨ entry.ready = true then
      ∃ radius, g.mark = some (.dot ⟨entry.position, radius, colour⟩)
    else g.mark = none := by
  cases h with
  | placeholder hn =>
    rw [hn] at hkind
    cases hkind
  | budHidden _ hext hready =>
    rw [if_neg (by simp [hext, hready])]
  | budShown hbud hreached =>
    rw [hbud] at hkind
    cases hkind
    rw [if_pos hreached]
    exact ⟨_, rfl⟩
  | waiting hbranch _ =>
    rw [hbranch] at hkind
    cases hkind
  | reached _ _ _ _ _ => cases hkind

/-- A branch is drawn from its entry to its exit once growth has reached it. -/
theorem mark_branch (h : n.Grows m entry source g source') {b : Branch}
    (hkind : g.node.kind = .branch b) :
    if entry.ready = true then
      ∃ width leaf, g.mark = some (.segment entry.position g.exit.position width b.colour leaf)
    else g.mark = none := by
  cases h with
  | placeholder hn =>
    rw [hn] at hkind
    cases hkind
  | budHidden hbud _ _ =>
    rw [hbud] at hkind
    cases hkind
  | budShown hbud _ =>
    rw [hbud] at hkind
    cases hkind
  | waiting _ hready => rw [if_neg (by simp [hready])]
  | reached _ hready _ _ _ =>
    cases hkind
    rw [if_pos hready]
    exact ⟨_, _, rfl⟩

end Grows

end Node

/-! ## A row in a frame -/

/-- The node was followed by the result of the frame, on the joints that the skeleton has. -/
def Shown (σ : Type) [RandomSource σ] (m : Moment) (k : Skeleton) (n : Node)
    (result : Node × Option Mark) : Prop :=
  ∃ (e x : Joint) (source source' : σ), k.get? n.entry = some e ∧ k.get? n.exit = some x ∧
    n.Grows m e source ⟨result.1, x, result.2⟩ source'

namespace OnSite

variable {σ : Type} [RandomSource σ]

/-- A node is grown from the joint at its entry, and only the joint at its exit is written. -/
theorem growNode_eq_ok {m : Moment} {n : Node} {result : Node × Option Mark} {s t : Site σ}
    (h : growNode m n s = .ok result t) :
    ∃ e g source, s.skeleton.get? n.entry = some e ∧ n.exit.index < s.skeleton.size ∧
      n.Grows m e s.source g source ∧ result = (g.node, g.mark) ∧
      t = ⟨s.skeleton.put n.exit g.exit, source⟩ := by
  simp only [growNode, Outcome.bind_eq_ok, Outcome.pure_eq_ok, joint_eq_ok, draw_eq_ok,
    setJoint_eq_ok] at h
  obtain ⟨e, r, ⟨he, rfl⟩, g, r', ⟨source, hgrow, rfl⟩, u, r'', ⟨hlt, rfl⟩, rfl, rfl⟩ := h
  exact ⟨e, g, source, he, hlt, Node.grows_of_grow hgrow, rfl, rfl⟩

/-- A frame goes through the row once, and the marks are those of the nodes that left one. -/
theorem growAll_eq_ok {m : Moment} {row row' : List Node} {marks : List Mark} {s t : Site σ}
    (h : growAll m row s = .ok (row', marks) t) :
    ∃ results, (row.mapM (growNode m)) s = .ok results t ∧ row' = results.map (·.1) ∧
      marks = results.filterMap (·.2) := by
  simp only [growAll, Outcome.bind_eq_ok, Outcome.pure_eq_ok, Prod.mk.injEq] at h
  obtain ⟨results, r, hresults, ⟨rfl, rfl⟩, rfl⟩ := h
  exact ⟨results, hresults, rfl, rfl⟩

/-- Every node of a row takes part in a frame, on some joint and with some source. -/
theorem grows_of_mapM {m : Moment} {row : List Node} {results : List (Node × Option Mark)}
    {s t : Site σ} (h : (row.mapM (growNode m)) s = .ok results t) :
    List.Forall₂ (fun n result => ∃ (e x : Joint) (source source' : σ),
      n.Grows m e source ⟨result.1, x, result.2⟩ source') row results := by
  induction row generalizing s results with
  | nil =>
    obtain ⟨rfl, -⟩ := Outcome.mapM_nil_eq_ok.mp h
    exact .nil
  | cons n row ih =>
    obtain ⟨result, r, results', hn, hrest, rfl⟩ := Outcome.mapM_cons_eq_ok.mp h
    obtain ⟨e, g, source, -, -, hgrows, rfl, -⟩ := growNode_eq_ok hn
    exact .cons ⟨e, g.exit, s.source, source, hgrows⟩ (ih hrest)

/-- A frame leaves the handles of a row as they are. -/
theorem handles_of_growAll {m : Moment} {row row' : List Node} {marks : List Mark} {s t : Site σ}
    (h : growAll m row s = .ok (row', marks) t) :
    List.Forall₂ (fun n n' : Node => n'.entry = n.entry ∧ n'.exit = n.exit) row row' := by
  obtain ⟨results, hresults, rfl, -⟩ := growAll_eq_ok h
  rw [List.forall₂_map_right_iff]
  exact (grows_of_mapM hresults).imp fun _ _ ⟨_, _, _, _, hgrows⟩ => hgrows.handles_eq

end OnSite

section Pass

variable {σ : Type} [RandomSource σ] {origin : Vec} {root : JointId} {m : Moment}

/-- Writing the exit joint of a node keeps the row rooted. -/
theorem Rooted.put {row : List Node} {k : Skeleton} {id : UInt32}
    (h : Rooted origin root row k id) {n : Node} (hn : n ∈ row) (x : Joint) :
    Rooted origin root row (k.put n.exit x) id where
  distinct := h.distinct
  preorder := h.preorder
  inside j hj := by
    rw [Skeleton.size_put]
    exact h.inside j hj
  size_le := by
    rw [Skeleton.size_put]
    exact h.size_le
  ground := by
    rw [Skeleton.get?_put_of_ne (h.distinct.exit_ne_root hn)]
    exact h.ground

/-- A node that was shown stays so while a later one writes its exit joint. -/
theorem Shown.put {n : Node} {result : Node × Option Mark} {k : Skeleton}
    (h : Shown σ m k n result) {j : JointId} (hj : n.entry ≠ j ∧ n.exit ≠ j) (x : Joint) :
    Shown σ m (k.put j x) n result := by
  obtain ⟨e, x', source, source', he, hx, hgrows⟩ := h
  refine ⟨e, x', source, source', ?_, ?_, hgrows⟩
  · rw [Skeleton.get?_put_of_ne hj.1.symm, he]
  · rw [Skeleton.get?_put_of_ne hj.2.symm, hx]

/-- Writing a joint that no node of the row uses leaves what the row shows. -/
theorem forall₂_shown_put {row : List Node} {results : List (Node × Option Mark)} {k : Skeleton}
    {j : JointId} (h : List.Forall₂ (Shown σ m k) row results)
    (hj : ∀ n ∈ row, n.entry ≠ j ∧ n.exit ≠ j) (x : Joint) :
    List.Forall₂ (Shown σ m (k.put j x)) row results := by
  induction h with
  | nil => exact .nil
  | cons hn _ ih =>
    exact .cons (hn.put (hj _ List.mem_cons_self) x)
      (ih fun n hn => hj n (List.mem_cons_of_mem _ hn))

/-- When a node is grown, the nodes before it have been shown and stay so: the frame writes behind
itself. -/
theorem shown_of_mapM {before row : List Node} {done results : List (Node × Option Mark)}
    {id : UInt32} {s t : Site σ} (h : (row.mapM (OnSite.growNode m)) s = .ok results t)
    (hroot : Rooted origin root (before ++ row) s.skeleton id)
    (hdone : List.Forall₂ (Shown σ m s.skeleton) before done) :
    Rooted origin root (before ++ row) t.skeleton id ∧
      List.Forall₂ (Shown σ m t.skeleton) (before ++ row) (done ++ results) := by
  induction row generalizing before done results s with
  | nil =>
    obtain ⟨rfl, rfl⟩ := Outcome.mapM_nil_eq_ok.mp h
    rw [List.append_nil] at hroot ⊢
    exact ⟨hroot, by simpa using hdone⟩
  | cons n row ih =>
    obtain ⟨result, r, results', hn, hrest, rfl⟩ := Outcome.mapM_cons_eq_ok.mp h
    obtain ⟨e, g, source, he, hlt, hgrows, rfl, rfl⟩ := OnSite.growNode_eq_ok hn
    have hmem : n ∈ before ++ n :: row := by simp
    have hself : Shown σ m (s.skeleton.put n.exit g.exit) n (g.node, g.mark) := by
      refine ⟨e, g.exit, s.source, source, ?_, Skeleton.get?_put_self hlt _, hgrows⟩
      rw [Skeleton.get?_put_of_ne hroot.entry_ne_exit.symm, he]
    -- no node that is done starts or ends at the joint that is written now
    have hdone' := forall₂_shown_put hdone (fun b hb => hroot.exit_ne_of_before hb) g.exit
    have hroot' := hroot.put hmem g.exit
    rw [show before ++ n :: row = (before ++ [n]) ++ row by simp] at hroot' ⊢
    rw [show done ++ (g.node, g.mark) :: results' =
      (done ++ [(g.node, g.mark)]) ++ results' by simp]
    exact ih hrest hroot' (List.rel_append hdone' (.cons hself .nil))

/-- Every item of the second row is related to one of the first. -/
theorem exists_of_forall₂ {α β : Type} {R : α → β → Prop} {as : List α} {bs : List β}
    (h : List.Forall₂ R as bs) {b : β} (hb : b ∈ bs) : ∃ a ∈ as, R a b := by
  induction h with
  | nil => cases hb
  | @cons a first as bs ha _ ih =>
    rcases List.mem_cons.mp hb with rfl | hb
    · exact ⟨a, List.mem_cons_self, ha⟩
    · obtain ⟨a', ha', hr⟩ := ih hb
      exact ⟨a', List.mem_cons_of_mem a ha', hr⟩

theorem exists_shown {row : List Node} {results : List (Node × Option Mark)} {k : Skeleton}
    (h : List.Forall₂ (Shown σ m k) row results) {result : Node × Option Mark}
    (hr : result ∈ results) : ∃ n ∈ row, Shown σ m k n result :=
  exists_of_forall₂ h hr

theorem Row.IsPreorder.congr_handles {row row' : List Node} {start : List JointId}
    (h : List.Forall₂ (fun n n' : Node => n'.entry = n.entry ∧ n'.exit = n.exit) row row')
    (hrow : IsPreorder start row) : IsPreorder start row' := by
  induction h generalizing start with
  | nil => trivial
  | @cons n n' row row' hn _ ih =>
    obtain ⟨hentry, hrest⟩ := hrow
    have hextend : extend start n' = extend start n := by
      rw [extend, extend, hn.1, hn.2]
    rw [← hn.1] at hentry
    rw [← hextend] at hrest
    exact ⟨hentry, ih hrest⟩

theorem Row.map_exit_congr {row row' : List Node}
    (h : List.Forall₂ (fun n n' : Node => n'.entry = n.entry ∧ n'.exit = n.exit) row row') :
    row'.map (·.exit) = row.map (·.exit) := by
  have heq : List.Forall₂ (· = ·) (row'.map (·.exit)) (row.map (·.exit)) := by
    rw [List.forall₂_map_left_iff, List.forall₂_map_right_iff]
    exact (h.imp fun n n' hn => hn.2).flip
  rwa [List.forall₂_eq_eq_eq] at heq

/-- A row is rooted by its handles alone. -/
theorem Rooted.congr_handles {row row' : List Node} {k : Skeleton} {id : UInt32}
    (h : Rooted origin root row k id)
    (hrow : List.Forall₂ (fun n n' : Node => n'.entry = n.entry ∧ n'.exit = n.exit) row row') :
    Rooted origin root row' k id := by
  have hexits := Row.map_exit_congr hrow
  refine {
    distinct := ?_, preorder := h.preorder.congr_handles hrow, inside := ?_
    size_le := h.size_le, ground := h.ground }
  · rw [Row.DistinctExits, hexits]
    exact h.distinct
  · rw [hexits]
    exact h.inside

/-- A frame of a rooted row: every node was shown on the joints that the skeleton has in the
end, and the row is still rooted. -/
theorem shown_of_growAll {row row' : List Node} {marks : List Mark} {id : UInt32}
    {s t : Site σ} (h : OnSite.growAll m row s = .ok (row', marks) t)
    (hroot : Rooted origin root row s.skeleton id) :
    ∃ results, row' = results.map (·.1) ∧ marks = results.filterMap (·.2) ∧
      List.Forall₂ (Shown σ m t.skeleton) row results ∧ Rooted origin root row' t.skeleton id := by
  obtain ⟨results, hresults, rfl, rfl⟩ := OnSite.growAll_eq_ok h
  have hroot₀ : Rooted origin root ([] ++ row) s.skeleton id := hroot
  obtain ⟨hroot', hshown⟩ := shown_of_mapM hresults hroot₀ .nil
  exact ⟨results, rfl, rfl, hshown, hroot'.congr_handles (OnSite.handles_of_growAll h)⟩

end Pass

/-! ## Flags -/

/-- Growth passes at the exit of the node as its entry and its kind say. -/
def FlagsInSync (k : Skeleton) (n : Node) : Prop :=
  ∃ e x, k.get? n.entry = some e ∧ k.get? n.exit = some x ∧
    x.ready = (n.carry e).ready ∧ x.extending = (n.carry e).extending

/-- Flags are in step where the whole exit is. -/
theorem InSync.flags {k : Skeleton} {n : Node} (h : InSync k n) : FlagsInSync k n := by
  obtain ⟨e, he, hx⟩ := h
  exact ⟨e, n.carry e, he, hx, rfl, rfl⟩

theorem Shown.flags {σ : Type} [RandomSource σ] {m : Moment} {k : Skeleton} {n : Node}
    {result : Node × Option Mark} (h : Shown σ m k n result) : FlagsInSync k result.1 := by
  obtain ⟨e, x, source, source', he, hx, hgrows⟩ := h
  obtain ⟨hentry, hexit⟩ := hgrows.handles_eq
  refine ⟨e, x, ?_, ?_, hgrows.flags_eq⟩
  · rw [hentry, he]
  · rw [hexit, hx]

theorem flags_of_shown {σ : Type} [RandomSource σ] {m : Moment} {k : Skeleton} {row : List Node}
    {results : List (Node × Option Mark)} (h : List.Forall₂ (Shown σ m k) row results) :
    ∀ n ∈ results.map (·.1), FlagsInSync k n := by
  intro n hn
  obtain ⟨result, hr, rfl⟩ := List.mem_map.mp hn
  obtain ⟨old, -, hold⟩ := exists_shown h hr
  exact hold.flags

end PlantGrowth
