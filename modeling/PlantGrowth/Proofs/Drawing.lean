import PlantGrowth.Proofs.GrowthFront

/-!
# Frames as drawings

A frame shows the nodes that growth has reached: a segment for each branch whose ancestor
branches are all grown, and a dot for each bud whose ancestor branches are grown but perhaps the
nearest. `Row.IsDrawing` says this of a choice of marks for the nodes of a row, and that what is
shown hangs together: a mark starts where the segment of the nearest branch above it ends.

Positions are read in the middle of a frame, but every joint is written before it is read, so
`Row.ends_of_still` can follow a position up to the branch that put it there.
`Plant.Reachable.tick_isDrawing` is the statement about all frames of reachable plants.
-/

set_option autoImplicit false

namespace PlantGrowth

/-! ## Drawings -/

namespace Row

/-- A place is the end of the segment drawn for the nearest branch above the node, or the origin
if there is no branch above. -/
def Connected (origin : Vec) (row : List Node) (drawn : Node → Option Mark) (n : Node)
    (place : Vec) : Prop :=
  (∃ m start width colour leaf, NearestBranch row m n ∧
      drawn m = some (.segment start place width colour leaf)) ∨
    (∀ a, Above row a n → a.branch? = none) ∧ place = origin

/-- Every branch above the node is grown, except perhaps the nearest. -/
def AboveStarted (row : List Node) (n : Node) : Prop :=
  ∀ m b, Above row m n → m.branch? = some b → b.isGrown = true ∨ NearestBranch row m n

/-- The marks of the nodes are a connected drawing of what growth has reached. -/
structure IsDrawing (origin : Vec) (row : List Node) (drawn : Node → Option Mark) : Prop where
  branch_shown : ∀ n ∈ row, ∀ b, n.kind = .branch b → AboveGrown row n →
    ∃ start finish width colour leaf, drawn n = some (.segment start finish width colour leaf) ∧
      Connected origin row drawn n start
  branch_hidden : ∀ n ∈ row, ∀ b, n.kind = .branch b → ¬ AboveGrown row n → drawn n = none
  bud_shown : ∀ n ∈ row, ∀ colour, n.kind = .bud colour → AboveStarted row n →
    ∃ d, drawn n = some (.dot d) ∧ Connected origin row drawn n d.centre
  bud_hidden : ∀ n ∈ row, ∀ colour, n.kind = .bud colour → ¬ AboveStarted row n → drawn n = none
  placeholder : ∀ n ∈ row, n.kind = .placeholder → drawn n = none

variable {root : JointId} {row : List Node} {a m n : Node}

/-- Of two nodes above one node, one is on the way to the other. -/
theorem onPath_or_above (hd : DistinctExits root row) (ha : Above row a n) (hm : Above row m n) :
    OnPath row a m ∨ Above row m a := by
  have hunique : Relator.RightUnique (Function.swap (Parent row)) :=
    fun _ _ _ hb hc => hd.parent_unique hb hc
  have ha' := Relation.reflTransGen_swap.mpr ha.to_reflTransGen
  have hm' := Relation.reflTransGen_swap.mpr hm.to_reflTransGen
  rcases Relation.ReflTransGen.total_of_right_unique hunique ha' hm' with h | h
  · rcases onPath_iff_eq_or_above.mp (Relation.reflTransGen_swap.mp h) with rfl | h
    · exact Or.inl Relation.ReflTransGen.refl
    · exact Or.inr h
  · exact Or.inl (Relation.reflTransGen_swap.mp h)

theorem nearestBranch_unique (hd : DistinctExits root row) (ha : NearestBranch row a n)
    (hm : NearestBranch row m n) : a = m := by
  rcases onPath_or_above hd ha.1 hm.1 with hpath | hbelow
  · rcases onPath_iff_eq_or_above.mp hpath with he | habove
    · exact he
    · have hnone := ha.2.2 m habove hm.1
      have hsome := hm.2.1
      rw [hnone] at hsome
      cases hsome
  · have hnone := hm.2.2 a hbelow ha.1
    have hsome := ha.2.1
    rw [hnone] at hsome
    cases hsome

theorem aboveStarted_iff (hd : DistinctExits root row) :
    AboveStarted row n ↔ AboveGrown row n ∨ NearestExtending row n := by
  constructor
  · intro h
    by_cases hgrown : AboveGrown row n
    · exact Or.inl hgrown
    · simp only [AboveGrown, not_forall, Bool.not_eq_true] at hgrown
      obtain ⟨m, b, hm, hb, hnot⟩ := hgrown
      -- the one branch that is not grown can only be the nearest
      have hnearest : NearestBranch row m n := by
        rcases h m b hm hb with hg | hnearest
        · rw [hnot] at hg
          cases hg
        · exact hnearest
      refine Or.inr ⟨m, b, hnearest, hb, hnot, ?_⟩
      intro a c ha hc
      rcases h a c (ha.trans hm) hc with hg | ⟨-, -, hnone⟩
      · exact hg
      · -- the branch `m` would stand between `a` and the node
        rw [hnone m ha hm] at hb
        cases hb
  · rintro (h | ⟨m, b, hnearest, hb, hnot, habove⟩) a c ha hc
    · exact Or.inl (h a c ha hc)
    · rcases onPath_or_above hd ha hnearest.1 with hpath | hbelow
      · rcases onPath_iff_eq_or_above.mp hpath with rfl | hpath
        · exact Or.inr hnearest
        · exact Or.inl (habove a c hpath hc)
      · rw [hnearest.2.2 a hbelow ha] at hc
        cases hc

end Row

/-! ## Positions -/

namespace Row

/-- The place is the end of the nearest branch at or above the node, or the origin if there is
no branch on the way. -/
def PathEnd (origin : Vec) (row : List Node) (k : Skeleton) (n : Node) (place : Vec) : Prop :=
  (∃ m x, LastBranch row m n ∧ k.get? m.exit = some x ∧ x.position = place) ∨
    (∀ a, OnPath row a n → a.branch? = none) ∧ place = origin

/-- The place is the end of the nearest branch above the node, or the origin if there is none. -/
def NearestEnd (origin : Vec) (row : List Node) (k : Skeleton) (n : Node) (place : Vec) : Prop :=
  (∃ m x, NearestBranch row m n ∧ k.get? m.exit = some x ∧ x.position = place) ∨
    (∀ a, Above row a n → a.branch? = none) ∧ place = origin

/-- Nodes without length end where they start. -/
def Still (row : List Node) (k : Skeleton) : Prop :=
  ∀ n ∈ row, n.branch? = none → ∀ {e x : Joint}, k.get? n.entry = some e →
    k.get? n.exit = some x → x.position = e.position

end Row

/-- The positions of all joints of a rooted row, at the entries and at the exits. -/
theorem Rooted.positions {origin : Vec} {root : JointId} {row : List Node} {k : Skeleton}
    {id : UInt32} (h : Rooted origin root row k id) (hstill : Row.Still row k) :
    (∀ n ∈ row, ∀ e, k.get? n.entry = some e → Row.NearestEnd origin row k n e.position) ∧
      ∀ n ∈ row, ∀ x, k.get? n.exit = some x → Row.PathEnd origin row k n x.position := by
  apply h.joints_induction
  case ground =>
    intro n _ hroot
    exact Or.inr ⟨fun a ha => absurd ha (h.distinct.not_above_of_entry_eq_root hroot), rfl⟩
  case across =>
    intro n hn e x he hx hentry
    cases hb : n.branch? with
    | some b =>
      have hsome : n.branch?.isSome := by rw [hb]; rfl
      have hlast := (Row.lastBranch_iff_of_branch h.distinct h.preorder hn hsome).mpr rfl
      exact Or.inl ⟨n, x, hlast, hx, rfl⟩
    | none =>
      rw [hstill n hn hb he hx]
      rcases hentry with ⟨m, xm, hm, hxm, hend⟩ | ⟨hnone, horigin⟩
      · exact Or.inl ⟨m, xm, (Row.lastBranch_iff_of_not_branch hb).mpr hm, hxm, hend⟩
      · refine Or.inr ⟨?_, horigin⟩
        intro a ha
        rcases Row.onPath_iff_eq_or_above.mp ha with rfl | ha
        · exact hb
        · exact hnone a ha
  case down =>
    intro m n x hparent hend
    simpa only [Row.NearestEnd, Row.PathEnd, Row.nearestBranch_iff_of_parent h.distinct hparent,
      h.distinct.above_iff hparent] using hend

/-! ## Marks -/

section Marks

variable {σ : Type} [RandomSource σ] {origin : Vec} {root : JointId} {k : Skeleton}
  {id : UInt32} {m : Moment} {results : List (Node × Option Mark)}

/-- The mark of a node in the results of a frame, found by the exit of the node. -/
def markOf (results : List (Node × Option Mark)) (n : Node) : Option Mark :=
  (results.find? fun r => r.1.exit = n.exit).bind (·.2)

theorem markOf_of_mem (hd : Row.DistinctExits root (results.map (·.1)))
    {result : Node × Option Mark} (hr : result ∈ results) :
    markOf results result.1 = result.2 := by
  -- no two results have the same exit, so the search stops at this one
  have hfind : results.find? (fun r => r.1.exit = result.1.exit) = some result := by
    have hnodup := (List.nodup_cons.mp hd).2
    clear hd
    induction results with
    | nil => cases hr
    | cons first results ih =>
      rw [List.map_cons, List.map_cons, List.nodup_cons] at hnodup
      rcases List.mem_cons.mp hr with rfl | hr
      · simp
      · have hne : first.1.exit ≠ result.1.exit := by
          intro he
          apply hnodup.1
          rw [he]
          exact List.mem_map_of_mem (List.mem_map_of_mem hr)
        rw [List.find?_cons_of_neg (by simpa using hne)]
        exact ih hr hnodup.2
  rw [markOf, hfind]
  rfl

theorem filterMap_markOf (hd : Row.DistinctExits root (results.map (·.1))) :
    results.filterMap (·.2) = (results.map (·.1)).filterMap (markOf results) := by
  rw [List.filterMap_map]
  exact List.filterMap_congr fun result hr => (markOf_of_mem hd hr).symm

/-- Every node after a frame took part in it between its joints and got its mark. -/
theorem exists_grows {row : List Node} (hd : Row.DistinctExits root (results.map (·.1)))
    (hshown : List.Forall₂ (Shown σ m k) row results) {n : Node}
    (hn : n ∈ results.map (·.1)) :
    ∃ (old : Node) (e x : Joint) (source source' : σ), k.get? n.entry = some e ∧
      k.get? n.exit = some x ∧ old.Grows m e source ⟨n, x, markOf results n⟩ source' := by
  obtain ⟨result, hr, rfl⟩ := List.mem_map.mp hn
  obtain ⟨old, -, e, x, source, source', he, hx, hgrows⟩ := exists_shown hshown hr
  obtain ⟨hentry, hexit⟩ := hgrows.handles_eq
  refine ⟨old, e, x, source, source', ?_, ?_, ?_⟩
  · rw [← he, ← hentry]
  · rw [← hx, ← hexit]
  · rw [markOf_of_mem hd hr]
    exact hgrows

theorem still_of_shown {row : List Node} (hd : Row.DistinctExits root (results.map (·.1)))
    (hshown : List.Forall₂ (Shown σ m k) row results) : Row.Still (results.map (·.1)) k := by
  intro n hn hb e x he hx
  obtain ⟨old, e', x', source, source', he', hx', hgrows⟩ := exists_grows hd hshown hn
  rw [he] at he'
  rw [hx] at hx'
  cases he'
  cases hx'
  exact hgrows.position_eq hb

/-- A node starts where the segment of the nearest branch above it ends, if growth has reached
that branch. -/
theorem connected_of_shown {row : List Node}
    (hroot : Rooted origin root (results.map (·.1)) k id)
    (hshown : List.Forall₂ (Shown σ m k) row results) {n : Node} (hn : n ∈ results.map (·.1))
    {e : Joint} (he : k.get? n.entry = some e)
    (habove : ∀ a, Row.NearestBranch (results.map (·.1)) a n →
      Row.AboveGrown (results.map (·.1)) a) :
    Row.Connected origin (results.map (·.1)) (markOf results) n e.position := by
  have hstill := still_of_shown hroot.distinct hshown
  rcases (hroot.positions hstill).1 n hn e he with ⟨a, x, hnearest, hx, hend⟩ | hnone
  · have ha := Row.mem_of_above hnearest.1
    obtain ⟨old, e', x', source, source', he', hx', hgrows⟩ := exists_grows hroot.distinct hshown ha
    rw [hx] at hx'
    cases hx'
    obtain ⟨b, hb⟩ := Option.isSome_iff_exists.mp hnearest.2.1
    have hready := ((hroot.flags (flags_of_shown hshown)).1 a ha e' he').1.mpr (habove a hnearest)
    -- growth has reached the branch, so its segment was drawn to where the node starts
    have hmark := hgrows.mark_branch (Node.kind_of_branch?_some hb)
    rw [if_pos hready] at hmark
    obtain ⟨width, leaf, hmark⟩ := hmark
    refine Or.inl ⟨a, e'.position, width, b.colour, leaf, hnearest, ?_⟩
    rw [← hend]
    exact hmark
  · exact Or.inr hnone

/-- The marks of a frame of a rooted row are a connected drawing. -/
theorem isDrawing_of_shown {row : List Node}
    (hroot : Rooted origin root (results.map (·.1)) k id)
    (hshown : List.Forall₂ (Shown σ m k) row results) :
    Row.IsDrawing origin (results.map (·.1)) (markOf results) := by
  -- the flags of the entry of a node say what its mark depends on
  have hflags := (hroot.flags (flags_of_shown hshown)).1
  have hgrows := fun n hn => exists_grows (n := n) hroot.distinct hshown hn
  refine {
    branch_shown := ?_, branch_hidden := ?_, bud_shown := ?_, bud_hidden := ?_
    placeholder := ?_ }
  · intro n hn b hkind habove
    obtain ⟨old, e, x, source, source', he, -, hg⟩ := hgrows n hn
    have hmark := hg.mark_branch hkind
    rw [if_pos ((hflags n hn e he).1.mpr habove)] at hmark
    obtain ⟨width, leaf, hmark⟩ := hmark
    refine ⟨e.position, x.position, width, b.colour, leaf, hmark, ?_⟩
    apply connected_of_shown hroot hshown hn he
    exact fun a ha c d hc hd => habove c d (hc.trans ha.1) hd
  · intro n hn b hkind habove
    obtain ⟨old, e, x, source, source', he, -, hg⟩ := hgrows n hn
    have hmark := hg.mark_branch hkind
    rwa [if_neg fun hready => habove ((hflags n hn e he).1.mp hready)] at hmark
  · intro n hn colour hkind hstarted
    obtain ⟨old, e, x, source, source', he, -, hg⟩ := hgrows n hn
    obtain ⟨hready, hextending⟩ := hflags n hn e he
    rw [Row.aboveStarted_iff hroot.distinct] at hstarted
    have hmark := hg.mark_bud hkind
    rw [if_pos (hstarted.symm.imp hextending.mpr hready.mpr)] at hmark
    obtain ⟨radius, hmark⟩ := hmark
    refine ⟨_, hmark, ?_⟩
    apply connected_of_shown hroot hshown hn he
    intro a ha
    rcases hstarted with hgrown | ⟨c, d, hc, -, -, hgrown⟩
    · exact fun c d hc hd => hgrown c d (hc.trans ha.1) hd
    · rw [Row.nearestBranch_unique hroot.distinct ha hc]
      exact hgrown
  · intro n hn colour hkind hstarted
    obtain ⟨old, e, x, source, source', he, -, hg⟩ := hgrows n hn
    obtain ⟨hready, hextending⟩ := hflags n hn e he
    rw [Row.aboveStarted_iff hroot.distinct] at hstarted
    have hmark := hg.mark_bud hkind
    rwa [if_neg fun h => hstarted (h.symm.imp hready.mp hextending.mp)] at hmark
  · intro n hn hkind
    obtain ⟨old, e, x, source, source', -, -, hg⟩ := hgrows n hn
    exact hg.mark_placeholder hkind

end Marks

/-- The marks of a frame are, in the order of the nodes, a connected drawing of exactly the nodes
that growth has reached. -/
theorem Plant.Reachable.tick_isDrawing {σ : Type} [RandomSource σ] {origin : Vec} {p p' : Plant}
    {time : Scalar} {noise : Noise} {marks : List Mark} {s t : Surroundings σ}
    (hp : Reachable origin p) (h : p.tick time noise s = .ok (p', marks) t) :
    ∃ drawn : Node → Option Mark, marks = p'.nodes.filterMap drawn ∧
      Row.IsDrawing origin p'.nodes drawn := by
  obtain ⟨root, hroot⟩ := hp.sound.rooted
  obtain ⟨nodes, k, source, hgrow, rfl, -⟩ := tick_eq_ok h
  obtain ⟨results, rfl, rfl, hshown, hrooted⟩ := shown_of_growAll hgrow hroot
  exact ⟨markOf results, filterMap_markOf hrooted.distinct, isDrawing_of_shown hrooted hshown⟩

/-- A frame of the sapling shows such a drawing. -/
theorem Plant.Reachable.tick_isDrawing_sapling : ∃ p p' marks t t',
    sapling ⟨⟨#[0], 0⟩, #[]⟩ = .ok p t ∧
      p.tick 0 (fun _ _ _ => .ok 0) t = .ok (p', marks) t' ∧
      ∃ drawn : Node → Option Mark, marks = p'.nodes.filterMap drawn ∧
        Row.IsDrawing ⟨0, 0⟩ p'.nodes drawn := by
  have hok : Outcome.isOk (fun _ => true) ((do let p ← sapling; p.tick 0 fun _ _ _ => .ok 0 :
      Garden Reel (Plant × List Mark)) ⟨⟨#[0], 0⟩, #[]⟩) = true := by decide +kernel
  obtain ⟨⟨p', marks⟩, t', h, -⟩ := Outcome.exists_of_isOk hok
  obtain ⟨p, t, hp, ht⟩ := Outcome.bind_eq_ok.mp h
  exact ⟨p, p', marks, t, t', hp, ht, (reachable_of_sapling hp).tick_isDrawing ht⟩

end PlantGrowth
