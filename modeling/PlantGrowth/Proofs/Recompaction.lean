import PlantGrowth.Proofs.Compaction
import Mathlib.Data.List.Dedup
import Mathlib.Data.List.Perm.Basic

/-!
# What compaction depends on

Compaction of a row has a result if every handle of the row is the handle of a joint
(`Skeleton.exists_compact_eq_ok`), and it keeps exactly one joint for each of them
(`Renamed.size_eq`). Of the handles it sees only which are equal and what joints they have, so
rows that differ in names compact to one and the same row (`Renamed.compact_eq_ok`). What was
compacted is therefore left as it is when it is compacted again
(`Skeleton.compact_of_compact_eq_ok`).
-/

set_option autoImplicit false

namespace PlantGrowth

theorem Row.handles_cons (n : Node) (row : List Node) :
    handles (n :: row) = n.entry :: n.exit :: handles row := rfl

namespace Renumbering

/-! ## Compaction has a result -/

variable {k : Skeleton} {r : Renumbering}

/-- A handle inside of the skeleton can be renamed. -/
theorem exists_rename_eq_ok (hf : Faithful k r) {id : JointId} (h : id.index < k.size) :
    ∃ new t, rename k id r = .ok new t := by
  obtain ⟨j, hj⟩ := Skeleton.exists_get? h
  have hlt : id.index < r.handles.size := by
    rw [hf.size_eq]
    exact h
  unfold rename
  rw [Array.getElem?_eq_getElem hlt, hj]
  cases r.handles[id.index] with
  | none => exact ⟨_, _, rfl⟩
  | some new => exact ⟨_, _, rfl⟩

theorem exists_renameNode_eq_ok (hf : Faithful k r) (hk : k.size ≤ UInt32.size) {n : Node}
    (hentry : n.entry.index < k.size) (hexit : n.exit.index < k.size) :
    ∃ n' t, renameNode k n r = .ok n' t := by
  obtain ⟨entry, u, h⟩ := exists_rename_eq_ok hf hentry
  obtain ⟨hf', -⟩ := met_of_rename hf hk h
  obtain ⟨exit, t, h'⟩ := exists_rename_eq_ok hf' hexit
  refine ⟨{ n with entry, exit }, t, ?_⟩
  simp only [renameNode, Outcome.bind_eq_ok, Outcome.pure_eq_ok]
  exact ⟨entry, u, h, exit, t, h', rfl, rfl⟩

/-- A row inside of the skeleton can be renamed. -/
theorem exists_mapM_renameNode_eq_ok (hf : Faithful k r) (hk : k.size ≤ UInt32.size)
    {row : List Node} (hrow : ∀ j ∈ Row.handles row, j.index < k.size) :
    ∃ row' t, (row.mapM (renameNode k)) r = .ok row' t := by
  induction row generalizing r with
  | nil => exact ⟨[], r, Outcome.mapM_nil_eq_ok.mpr ⟨rfl, rfl⟩⟩
  | cons n row ih =>
    rw [Row.handles_cons, List.forall_mem_cons, List.forall_mem_cons] at hrow
    obtain ⟨hentry, hexit, hrest⟩ := hrow
    obtain ⟨n', u, hn⟩ := exists_renameNode_eq_ok hf hk hentry hexit
    obtain ⟨hf', -⟩ := renameNode_eq_ok hf hk hn
    obtain ⟨row', t, h⟩ := ih hf' hrest
    exact ⟨n' :: row', t, Outcome.mapM_cons_eq_ok.mpr ⟨n', u, row', hn, h, rfl⟩⟩

end Renumbering

/-- A compaction fails only over a handle outside of the skeleton. -/
theorem Skeleton.exists_compact_eq_ok {k : Skeleton} {row : List Node} (hk : k.size ≤ UInt32.size)
    (hrow : ∀ j ∈ Row.handles row, j.index < k.size) : ∃ c, k.compact row = .ok c := by
  obtain ⟨row', t, h⟩ :=
    Renumbering.exists_mapM_renameNode_eq_ok (Renumbering.faithful_start k) hk hrow
  unfold compact
  rw [h]
  exact ⟨_, rfl⟩

/-! ## One joint for each handle -/

namespace Renamed

variable {ρ : JointId → JointId} {used : List JointId} {k k' : Skeleton}

theorem index_lt (hr : Renamed ρ used k k') {j : JointId} (hj : j ∈ used) : j.index < k.size := by
  obtain ⟨x, hx⟩ := Skeleton.exists_get? (hr.inside j hj)
  rw [hr.get?_eq j hj] at hx
  exact Skeleton.index_lt_of_get? hx

/-- The new skeleton has as many joints as there are different handles in use. -/
theorem size_eq (hr : Renamed ρ used k k') : k'.size = used.dedup.length := by
  have hnodup : (used.dedup.map fun j => (ρ j).index).Nodup := by
    refine List.Nodup.map_on (fun i hi j hj he => ?_) used.nodup_dedup
    exact hr.injective i (List.mem_dedup.mp hi) j (List.mem_dedup.mp hj) (JointId.ext_index he)
  have hperm : (used.dedup.map fun j => (ρ j).index).Perm (List.range k'.size) := by
    rw [List.perm_ext_iff_of_nodup hnodup List.nodup_range]
    intro m
    rw [List.mem_map, List.mem_range]
    constructor
    · rintro ⟨j, hj, rfl⟩
      exact hr.inside j (List.mem_dedup.mp hj)
    · intro hm
      obtain ⟨j, hj, he⟩ := hr.onto m hm
      exact ⟨j, List.mem_dedup.mpr hj, he⟩
  rw [← List.length_range (n := k'.size), ← hperm.length_eq, List.length_map]

end Renamed

/-! ## Compaction under new names -/

namespace Renumbering

/-- Renumberings of two skeletons that give the same new handles to the handles in use and to
their old names. -/
structure Parallel (ρ : JointId → JointId) (used : List JointId) (r t : Renumbering) : Prop where
  handles_eq : ∀ j ∈ used, t.handles[(ρ j).index]? = r.handles[j.index]?
  kept_eq : t.kept = r.kept

variable {ρ : JointId → JointId} {used : List JointId} {k k' : Skeleton} {r r' t : Renumbering}

/-- Two compactions start in parallel. -/
theorem parallel_start (hr : Renamed ρ used k k') : Parallel ρ used (start k) (start k') where
  handles_eq := by
    intro j hj
    show (Array.replicate k'.size none)[(ρ j).index]? = (Array.replicate k.size none)[j.index]?
    rw [Array.getElem?_replicate, Array.getElem?_replicate, if_pos (hr.inside j hj),
      if_pos (hr.index_lt hj)]
  kept_eq := rfl

/-- In parallel compactions a handle and its renaming get the same name. -/
theorem rename_parallel (hr : Renamed ρ used k k') (h : Parallel ρ used r t) {j new : JointId}
    (hj : j ∈ used) (hnew : rename k j r = .ok new r') :
    ∃ t', rename k' (ρ j) t = .ok new t' ∧ Parallel ρ used r' t' := by
  unfold rename at hnew ⊢
  rw [h.handles_eq j hj, hr.get?_eq j hj, h.kept_eq]
  split at hnew
  · cases hnew
    exact ⟨t, rfl, h⟩
  · rename_i x hnone hx
    cases hnew
    refine ⟨_, rfl, ?_, rfl⟩
    intro i hi
    by_cases hij : i = j
    · -- both tables get the same entry
      subst hij
      have hnone' : t.handles[(ρ i).index]? = some none := by rw [h.handles_eq i hi, hnone]
      have hlt := (Array.getElem?_eq_some_iff.mp hnone).1
      have hlt' := (Array.getElem?_eq_some_iff.mp hnone').1
      simp only [Array.getElem?_setIfInBounds_self, hlt, hlt', if_true]
    · have hne : j.index ≠ i.index := fun he => hij (JointId.ext_index he.symm)
      have hne' : (ρ j).index ≠ (ρ i).index := fun he =>
        hij (hr.injective i hi j hj (JointId.ext_index he.symm))
      rw [Array.getElem?_setIfInBounds_ne hne, Array.getElem?_setIfInBounds_ne hne',
        h.handles_eq i hi]
  · cases hnew

theorem renameNode_parallel (hr : Renamed ρ used k k') (h : Parallel ρ used r t) {n n' : Node}
    (hentry : n.entry ∈ used) (hexit : n.exit ∈ used) (hn : renameNode k n r = .ok n' r') :
    ∃ t', renameNode k' (n.rename ρ) t = .ok n' t' ∧ Parallel ρ used r' t' := by
  simp only [renameNode, Outcome.bind_eq_ok, Outcome.pure_eq_ok] at hn
  obtain ⟨entry, u, hu, exit, r', hr', rfl, rfl⟩ := hn
  obtain ⟨v, hv, h⟩ := rename_parallel hr h hentry hu
  obtain ⟨t', ht', h⟩ := rename_parallel hr h hexit hr'
  refine ⟨t', ?_, h⟩
  simp only [renameNode, Outcome.bind_eq_ok, Outcome.pure_eq_ok]
  exact ⟨entry, v, hv, exit, t', ht', rfl, rfl⟩

/-- So a row and its renaming are compacted into one row. -/
theorem mapM_renameNode_parallel (hr : Renamed ρ used k k') (h : Parallel ρ used r t)
    {row row' : List Node} (hrow : Row.handles row ⊆ used)
    (hnodes : (row.mapM (renameNode k)) r = .ok row' r') :
    ∃ t', ((row.map (Node.rename ρ)).mapM (renameNode k')) t = .ok row' t' ∧
      Parallel ρ used r' t' := by
  induction row generalizing r t row' with
  | nil =>
    obtain ⟨rfl, rfl⟩ := Outcome.mapM_nil_eq_ok.mp hnodes
    exact ⟨t, Outcome.mapM_nil_eq_ok.mpr ⟨rfl, rfl⟩, h⟩
  | cons n row ih =>
    rw [Row.handles_cons, List.cons_subset, List.cons_subset] at hrow
    obtain ⟨hentry, hexit, hrest⟩ := hrow
    obtain ⟨n', u, rest, hn, hlater, rfl⟩ := Outcome.mapM_cons_eq_ok.mp hnodes
    obtain ⟨v, hv, h⟩ := renameNode_parallel hr h hentry hexit hn
    obtain ⟨t', ht', h⟩ := ih h hrest hlater
    exact ⟨t', Outcome.mapM_cons_eq_ok.mpr ⟨n', v, rest, hv, ht', rfl⟩, h⟩

end Renumbering

open Renumbering in
/-- A row and the same row under other names compact to the same nodes on the same skeleton. -/
theorem Renamed.compact_eq_ok {ρ : JointId → JointId} {used : List JointId} {k k' : Skeleton}
    (hr : Renamed ρ used k k') {row : List Node} (hrow : Row.handles row ⊆ used) {c : Compacted}
    (h : k.compact row = .ok c) :
    k'.compact (row.map (Node.rename ρ)) =
      .ok { c with freed := k'.size - c.skeleton.size } := by
  unfold Skeleton.compact at h ⊢
  split at h
  · rename_i nodes r hnodes
    cases h
    obtain ⟨t, ht, hparallel⟩ := mapM_renameNode_parallel hr (parallel_start hr) hrow hnodes
    rw [ht]
    dsimp only
    rw [hparallel.kept_eq]
    rfl
  · cases h

/-- A second compaction finds nothing left to do. -/
theorem Skeleton.compact_of_compact_eq_ok {k : Skeleton} {row : List Node} {c : Compacted}
    (hk : k.size ≤ UInt32.size) (h : k.compact row = .ok c) :
    c.skeleton.compact c.nodes = .ok { c with freed := 0 } := by
  obtain ⟨ρ, hnodes, hr, -⟩ := compact_eq_ok hk h
  rw [hnodes, hr.compact_eq_ok (List.Subset.refl _) h, Nat.sub_self, ← hnodes]

end PlantGrowth
