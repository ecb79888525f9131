import PlantGrowth.Proofs.Replacement

/-!
# Rooted rows

`Rooted` is the invariant of the nodes of a plant on its skeleton, kept at every moment of a
generation: the nodes are a tree in preorder below one root joint, no two of them end at the
same joint, every joint they use exists, and the root joint is as it was when the plant was
sown. `Rooted.replaced` is the step of a generation that puts nodes in the place of one;
`Expansion.rooted_of_mapM_append` the pass over nodes of a row, which also leaves their exit joints
in line with their entries.
-/

set_option autoImplicit false

namespace PlantGrowth

/-- The nodes are a tree in preorder that hangs on the root joint of the skeleton. -/
structure Rooted (origin : Vec) (root : JointId) (row : List Node) (k : Skeleton)
    (id : UInt32) : Prop where
  distinct : Row.DistinctExits root row
  preorder : Row.IsPreorder [root] row
  inside : ∀ j ∈ root :: row.map (·.exit), j.index < k.size
  size_le : k.size ≤ id.toNat + 1
  ground : k.get? root = some (.root origin)

namespace Rooted

variable {origin : Vec} {root : JointId} {row before after nodes : List Node} {old : Node}
  {k k' : Skeleton} {id id' : UInt32}

/-- Exits name joints. -/
theorem exit_inside (h : Rooted origin root row k id) {n : Node} (hn : n ∈ row) :
    n.exit.index < k.size :=
  h.inside _ (List.mem_cons_of_mem root (List.mem_map_of_mem hn))

/-- Every node stands on the root or on its parent. -/
theorem entry_cases (h : Rooted origin root row k id) {n : Node} (hn : n ∈ row) :
    n.entry = root ∨ ∃ m, Row.Parent row m n := by
  rcases h.preorder.entry_mem hn with he | ⟨m, hm, he⟩
  · exact Or.inl (List.mem_singleton.mp he)
  · exact Or.inr ⟨m, hm, hn, he.symm⟩

theorem entry_inside (h : Rooted origin root row k id) {n : Node} (hn : n ∈ row) :
    n.entry.index < k.size := by
  rcases h.entry_cases hn with he | ⟨m, hm, -, he⟩
  · rw [he]
    exact h.inside root List.mem_cons_self
  · rw [he]
    exact h.exit_inside hm

/-- Properties of joints that pass from the root to the entries at it, from the entry of a node to
its exit, and from there to the entries of its children, hold of all joints of the row. -/
theorem joints_induction (h : Rooted origin root row k id) {atEntry atExit : Node → Joint → Prop}
    (ground : ∀ n ∈ row, n.entry = root → atEntry n (.root origin))
    (across : ∀ n ∈ row, ∀ e x, k.get? n.entry = some e → k.get? n.exit = some x →
      atEntry n e → atExit n x)
    (down : ∀ m n x, Row.Parent row m n → atExit m x → atEntry n x) :
    (∀ n ∈ row, ∀ e, k.get? n.entry = some e → atEntry n e) ∧
      ∀ n ∈ row, ∀ x, k.get? n.exit = some x → atExit n x := by
  -- entries and exits follow each other on the way up from the root
  have entry_of : ∀ n ∈ row, (n.entry = root ∨ ∃ m, Row.Parent row m n ∧
      ∀ x, k.get? m.exit = some x → atExit m x) → ∀ e, k.get? n.entry = some e → atEntry n e := by
    rintro n hn (hroot | ⟨m, hparent, hm⟩) e he
    · rw [hroot, h.ground] at he
      cases he
      exact ground n hn hroot
    · rw [hparent.2.2] at he
      exact down m n e hparent (hm e he)
  have exit_of : ∀ n ∈ row, (∀ e, k.get? n.entry = some e → atEntry n e) →
      ∀ x, k.get? n.exit = some x → atExit n x := by
    intro n hn hentry x hx
    obtain ⟨e, he⟩ := Skeleton.exists_get? (h.entry_inside hn)
    exact across n hn e x he hx (hentry e he)
  have hexits : ∀ n ∈ row, ∀ x, k.get? n.exit = some x → atExit n x := by
    refine h.preorder.induction ?_ ?_
    · exact fun n hn hroot => exit_of n hn (entry_of n hn (Or.inl hroot))
    · exact fun m n hparent hm =>
        exit_of n hparent.2.1 (entry_of n hparent.2.1 (Or.inr ⟨m, hparent, hm⟩))
  refine ⟨fun n hn => entry_of n hn ?_, hexits⟩
  rcases h.entry_cases hn with hroot | ⟨m, hparent⟩
  · exact Or.inl hroot
  · exact Or.inr ⟨m, hparent, hexits m hparent.1⟩

/-- A node that comes later ends neither where an earlier one starts nor where it ends. -/
theorem exit_ne_of_before (h : Rooted origin root (before ++ old :: after) k id) {n : Node}
    (hn : n ∈ before) : n.entry ≠ old.exit ∧ n.exit ≠ old.exit := by
  have hold : old ∈ before ++ old :: after := by simp
  have hmem : ∀ m ∈ before, m ∈ before ++ old :: after := fun m hm => by simp [hm]
  have hexit : ∀ m ∈ before, m.exit ≠ old.exit := by
    intro m hm he
    have hnodup := (List.nodup_cons.mp h.distinct).2
    rw [List.map_append, List.map_cons] at hnodup
    apply (List.disjoint_of_nodup_append hnodup) (List.mem_map_of_mem hm)
    simp [he]
  refine ⟨?_, hexit n hn⟩
  have hpre := (Row.IsPreorder.append_iff.mp h.preorder).1
  rcases hpre.entry_mem hn with he | ⟨m, hm, he⟩
  · rw [List.mem_singleton.mp he]
    exact (h.distinct.exit_ne_root hold).symm
  · rw [← he]
    exact hexit m hm

/-- No node ends where it starts. -/
theorem entry_ne_exit (h : Rooted origin root (before ++ old :: after) k id) :
    old.entry ≠ old.exit := by
  have hold : old ∈ before ++ old :: after := by simp
  have hpre := (Row.IsPreorder.append_iff.mp h.preorder).2.1
  rcases Row.mem_trail hpre with he | ⟨m, hm, he⟩
  · rw [List.mem_singleton.mp he]
    exact (h.distinct.exit_ne_root hold).symm
  · rw [← he]
    exact (h.exit_ne_of_before hm).2

/-- Nodes that take the place of one keep the row rooted. -/
theorem replaced (h : Rooted origin root (before ++ old :: after) k id)
    (hr : Expansion.Replaced old k id nodes k' id') :
    Rooted origin root (before ++ nodes ++ after) k' id' := by
  obtain ⟨front, last, rfl, hlast, hfresh, hnodup⟩ := hr.last_exit
  have hold : old ∈ before ++ old :: after := by simp
  have hexit_old := h.exit_inside hold
  have hdistinct := h.distinct
  rw [Row.DistinctExits] at hdistinct
  -- the exits in the new row are the old ones and, in front of the old exit, new ones
  have hexits : root :: (before ++ (front ++ [last]) ++ after).map (·.exit) =
      (root :: before.map (·.exit)) ++ front.map (·.exit) ++ (old.exit :: after.map (·.exit)) := by
    simp [hlast]
  have hexits_old : root :: (before ++ old :: after).map (·.exit) =
      (root :: before.map (·.exit)) ++ (old.exit :: after.map (·.exit)) := by
    simp
  have hinside : ∀ j ∈ (root :: before.map (·.exit)) ++ (old.exit :: after.map (·.exit)),
      j.index < k.size := by
    rw [← hexits_old]
    exact h.inside
  have hnew : ∀ j ∈ front.map (·.exit), k.size ≤ j.index ∧ j.index < k'.size := by
    intro j hj
    obtain ⟨n, hn, rfl⟩ := List.mem_map.mp hj
    exact hfresh n hn
  refine {
    distinct := ?_, preorder := ?_, inside := ?_, size_le := hr.size_le.2, ground := ?_ }
  · rw [Row.DistinctExits, hexits]
    rw [hexits_old] at hdistinct
    have hdisjoint : (front.map (·.exit)).Disjoint
        ((root :: before.map (·.exit)) ++ (old.exit :: after.map (·.exit))) := by
      intro j hj hj'
      exact absurd (hinside j hj') (Nat.not_lt.mpr (hnew j hj).1)
    -- up to their order the exits are the new ones in front of the old ones
    rw [(List.perm_append_comm.append_right _).nodup_iff, List.append_assoc]
    exact hnodup.append hdistinct hdisjoint
  · have hpre := h.preorder
    rw [Row.IsPreorder.append_iff] at hpre
    obtain ⟨hbefore, hentry, hafter⟩ := hpre
    have htrail : ∀ j ∈ Row.trail [root] before, j.index < k.size := by
      intro j hj
      rcases Row.mem_trail hj with he | ⟨m, hm, rfl⟩
      · rw [List.mem_singleton.mp he]
        exact h.inside root List.mem_cons_self
      · exact h.exit_inside (List.mem_append_left _ hm)
    -- what came after the old node finds all of the trail it had before, and more
    obtain ⟨hnodes, hsub⟩ := hr.preorder _ htrail hentry
    rw [Row.IsPreorder.append_iff, Row.IsPreorder.append_iff, Row.trail_append]
    exact ⟨⟨hbefore, hnodes⟩, hafter.mono hsub⟩
  · intro j hj
    rw [hexits, List.mem_append, List.mem_append] at hj
    have hle := hr.size_le.1
    rcases hj with (hj | hj) | hj
    · have := hinside j (List.mem_append_left _ hj)
      omega
    · exact (hnew j hj).2
    · have := hinside j (List.mem_append_right _ hj)
      omega
  · rw [hr.get?_of_ne root (h.inside root List.mem_cons_self) (h.distinct.exit_ne_root hold).symm]
    exact h.ground

/-- Nodes that were in line stay so while a later one is replaced. -/
theorem inSync_replaced (h : Rooted origin root (before ++ old :: after) k id)
    (hr : Expansion.Replaced old k id nodes k' id') (hsync : ∀ n ∈ before, InSync k n) :
    ∀ n ∈ before ++ nodes, InSync k' n := by
  intro n hn
  rcases List.mem_append.mp hn with hn | hn
  · have hmem : n ∈ before ++ old :: after := List.mem_append_left _ hn
    obtain ⟨hentry, hexit⟩ := h.exit_ne_of_before hn
    exact (hsync n hn).congr (hr.get?_of_ne _ (h.entry_inside hmem) hentry)
      (hr.get?_of_ne _ (h.exit_inside hmem) hexit)
  · exact hr.inSync n hn

end Rooted

/-! ## A pass over a row -/

namespace Expansion

variable {σ : Type} [RandomSource σ] {origin : Vec} {root : JointId} {grammar : Grammar}
  {params : GrowthParams}

/-- A pass over some of the nodes of a rooted row leaves a rooted row, and the exits of all nodes up
to where the pass ends are in line. -/
theorem rooted_of_mapM_append {before row after : List Node} {parts : List Replacement}
    {s t : Nursery σ} (h : (row.mapM (replace grammar params)) s = .ok parts t)
    (hroot : Rooted origin root (before ++ row ++ after) s.site.skeleton s.nextId)
    (hsync : ∀ n ∈ before, InSync s.site.skeleton n) :
    Rooted origin root (before ++ parts.flatMap (·.nodes) ++ after) t.site.skeleton t.nextId ∧
      ∀ n ∈ before ++ parts.flatMap (·.nodes), InSync t.site.skeleton n := by
  induction row generalizing before parts s with
  | nil =>
    obtain ⟨rfl, rfl⟩ := Outcome.mapM_nil_eq_ok.mp h
    rw [List.flatMap_nil]
    exact ⟨hroot, by simpa using hsync⟩
  | cons old row ih =>
    obtain ⟨part, r, parts', hpart, hrest, rfl⟩ := Outcome.mapM_cons_eq_ok.mp h
    rw [List.append_assoc, List.cons_append] at hroot
    -- the nodes before are final, those behind still stand as they did before the pass
    have hrep := replaced_of_replace hpart hroot.entry_ne_exit hroot.size_le
    have hnext := hroot.replaced hrep
    rw [← List.append_assoc] at hnext
    have key := ih hrest hnext (hroot.inSync_replaced hrep hsync)
    rw [List.flatMap_cons, ← List.append_assoc before]
    exact key

/-- The nodes after a pass over a row are rooted, and the exits of all of them are in line. -/
theorem rooted_of_mapM {before row : List Node} {parts : List Replacement} {s t : Nursery σ}
    (h : (row.mapM (replace grammar params)) s = .ok parts t)
    (hroot : Rooted origin root (before ++ row) s.site.skeleton s.nextId)
    (hsync : ∀ n ∈ before, InSync s.site.skeleton n) :
    Rooted origin root (before ++ parts.flatMap (·.nodes)) t.site.skeleton t.nextId ∧
      ∀ n ∈ before ++ parts.flatMap (·.nodes), InSync t.site.skeleton n := by
  rw [← List.append_nil (before ++ row)] at hroot
  have key := rooted_of_mapM_append h hroot hsync
  rwa [List.append_nil] at key

/-- A pass never leaves an empty row behind. -/
theorem flatMap_nodes_ne_nil {row : List Node} {parts : List Replacement} {s t : Nursery σ}
    (h : (row.mapM (replace grammar params)) s = .ok parts t)
    (hroot : Rooted origin root row s.site.skeleton s.nextId) (hne : row ≠ []) :
    parts.flatMap (·.nodes) ≠ [] := by
  cases row with
  | nil => exact absurd rfl hne
  | cons old row =>
    obtain ⟨part, r, parts', hpart, hrest, rfl⟩ := Outcome.mapM_cons_eq_ok.mp h
    have hroot' : Rooted origin root ([] ++ old :: row) s.site.skeleton s.nextId := hroot
    have hrep := replaced_of_replace hpart hroot'.entry_ne_exit hroot.size_le
    obtain ⟨front, last, hnodes, -⟩ := hrep.last_exit
    simp [hnodes]

theorem replaceAll_eq_ok {row : List Node} {next : Replacement} {s t : Nursery σ}
    (h : replaceAll grammar params row s = .ok next t) :
    ∃ parts, (row.mapM (replace grammar params)) s = .ok parts t ∧
      next.nodes = parts.flatMap (·.nodes) ∧
      Tally.total (parts.map (·.tally)) = .ok next.tally := by
  simp only [replaceAll, Outcome.bind_eq_ok, Outcome.pure_eq_ok, Build.check_eq_ok] at h
  obtain ⟨parts, r, hparts, tally, r', ⟨htally, rfl⟩, rfl, rfl⟩ := h
  exact ⟨parts, hparts, rfl, htally⟩

/-- A pass over a rooted row leaves a rooted row. -/
theorem rooted_of_replaceAll {row : List Node} {next : Replacement} {s t : Nursery σ}
    (h : replaceAll grammar params row s = .ok next t)
    (hroot : Rooted origin root row s.site.skeleton s.nextId) :
    Rooted origin root next.nodes t.site.skeleton t.nextId := by
  obtain ⟨parts, hparts, hnodes, -⟩ := replaceAll_eq_ok h
  have hstart : Rooted origin root ([] ++ row) s.site.skeleton s.nextId := hroot
  rw [hnodes]
  exact (rooted_of_mapM hparts hstart (by simp)).1

theorem nodes_ne_nil_of_replaceAll {row : List Node} {next : Replacement} {s t : Nursery σ}
    (h : replaceAll grammar params row s = .ok next t)
    (hroot : Rooted origin root row s.site.skeleton s.nextId) (hne : row ≠ []) :
    next.nodes ≠ [] := by
  obtain ⟨parts, hparts, hnodes, -⟩ := replaceAll_eq_ok h
  rw [hnodes]
  exact flatMap_nodes_ne_nil hparts hroot hne

end Expansion

end PlantGrowth
