import PlantGrowth.Proofs.Rooted

/-!
# Compaction renames handles

A skeleton is compacted by giving the handles in use new names. `Renamed` is the relation
between the two skeletons: the renaming keeps different handles apart, every joint in use is
found under its new name, and the new skeleton has no other joints. `renamed_of_compact` obtains
it from a compaction, by way of what each renamed handle adds to the renumbering
(`Renumbering.met_of_rename`).

What holds of a row in terms of which handles are equal and what joints they have is kept:
`Rooted.renamed` for the tree and `InSync.renamed` for the exit joints.
-/

set_option autoImplicit false

namespace PlantGrowth

/-- The node with its handles renamed. -/
def Node.rename (ρ : JointId → JointId) (n : Node) : Node :=
  { n with entry := ρ n.entry, exit := ρ n.exit }

/-- Handles that the nodes of a row use. -/
def Row.handles (row : List Node) : List JointId := row.flatMap fun n => [n.entry, n.exit]

theorem Row.entry_mem_handles {row : List Node} {n : Node} (hn : n ∈ row) :
    n.entry ∈ handles row :=
  List.mem_flatMap.mpr ⟨n, hn, by simp⟩

theorem Row.exit_mem_handles {row : List Node} {n : Node} (hn : n ∈ row) :
    n.exit ∈ handles row :=
  List.mem_flatMap.mpr ⟨n, hn, by simp⟩

/-- The handles in use and their joints, under new names. -/
structure Renamed (ρ : JointId → JointId) (used : List JointId) (k k' : Skeleton) : Prop where
  injective : ∀ i ∈ used, ∀ j ∈ used, ρ i = ρ j → i = j
  inside : ∀ j ∈ used, (ρ j).index < k'.size
  get?_eq : ∀ j ∈ used, k'.get? (ρ j) = k.get? j
  onto : ∀ m < k'.size, ∃ j ∈ used, (ρ j).index = m
  size_le : k'.size ≤ k.size

/-! ## Names given by a renumbering -/

namespace Renumbering

/-- The new name of a handle, if it was met. -/
def name? (r : Renumbering) (j : JointId) : Option JointId := r.handles[j.index]?.join

/-- The names given so far are those of the joints kept, one name for each joint. -/
structure Faithful (k : Skeleton) (r : Renumbering) : Prop where
  size_eq : r.handles.size = k.size
  /-- Every joint kept has used up one handle. -/
  count_eq : r.handles.count none + r.kept.size = k.size
  inside : ∀ {j new}, r.name? j = some new → new.index < r.kept.size
  kept_eq : ∀ {j new}, r.name? j = some new → r.kept[new.index]? = k.get? j
  injective : ∀ {i j new}, r.name? i = some new → r.name? j = some new → i = j
  onto : ∀ m < r.kept.size, ∃ j new, r.name? j = some new ∧ new.index = m

/-- One renumbering goes on from another: it names some more handles. -/
structure Met (r : Renumbering) (used : List JointId) (t : Renumbering) : Prop where
  keeps : ∀ {j new}, r.name? j = some new → t.name? j = some new
  meets : ∀ j ∈ used, ∃ new, t.name? j = some new
  only : ∀ {j new}, t.name? j = some new → r.name? j = some new ∨ j ∈ used

/-- A renumbering that has met some handles and then others has met them all. -/
theorem Met.trans {r t u : Renumbering} {used more : List JointId} (h : Met r used t)
    (h' : Met t more u) : Met r (used ++ more) u where
  keeps hj := h'.keeps (h.keeps hj)
  meets j hj := by
    rcases List.mem_append.mp hj with hj | hj
    · obtain ⟨new, hnew⟩ := h.meets j hj
      exact ⟨new, h'.keeps hnew⟩
    · exact h'.meets j hj
  only hj := by
    rcases h'.only hj with hj | hj
    · exact (h.only hj).imp_right fun h => List.mem_append_left _ h
    · exact Or.inr (List.mem_append_right _ hj)

theorem Met.refl (r : Renumbering) : Met r [] r where
  keeps hj := hj
  meets _ hj := absurd hj List.not_mem_nil
  only := Or.inl

/-- At the start no handle has a new name. -/
theorem name?_start (k : Skeleton) (j : JointId) : (start k).name? j = none := by
  rw [name?, start, Array.getElem?_replicate]
  split <;> rfl

/-- The renumbering starts without kept joints, which is faithful to any skeleton. -/
theorem faithful_start (k : Skeleton) : Faithful k (start k) where
  size_eq := Array.size_replicate
  count_eq := by simp [start, Skeleton.size]
  inside h := by simp [name?_start] at h
  kept_eq h := by simp [name?_start] at h
  injective h := by simp [name?_start] at h
  onto m hm := absurd hm (Nat.not_lt_zero m)

/-- The renumbering with a name for one more handle, whose joint is kept. -/
def addName (r : Renumbering) (id new : JointId) (j : Joint) : Renumbering :=
  ⟨r.handles.setIfInBounds id.index (some new), r.kept.push j⟩

/-- A handle has its name already, or it gets the next one. -/
theorem rename_eq_ok {k : Skeleton} {id new : JointId} {r t : Renumbering}
    (h : rename k id r = .ok new t) :
    (r.name? id = some new ∧ t = r) ∨
      (∃ j, r.handles[id.index]? = some none ∧ k.get? id = some j ∧
        new = ⟨.ofNat r.kept.size⟩ ∧ t = r.addName id new j) := by
  unfold rename at h
  split at h
  · rename_i new' _ hnew
    cases h
    exact Or.inl ⟨by simp [name?, hnew], rfl⟩
  · rename_i j hnone hj
    cases h
    exact Or.inr ⟨j, hnone, hj, rfl, rfl⟩
  · cases h

section AddName

variable {k : Skeleton} {id new : JointId} {j : Joint} {r : Renumbering}

/-- A handle that gets a new name has it. -/
theorem name?_addName_self (h : r.handles[id.index]? = some none) :
    (r.addName id new j).name? id = some new := by
  have hlt : id.index < r.handles.size := (Array.getElem?_eq_some_iff.mp h).1
  simp [addName, name?, hlt]

/-- The names of the other handles stay. -/
theorem name?_addName_of_ne {i : JointId} (hi : i ≠ id) :
    (r.addName id new j).name? i = r.name? i := by
  have hne : id.index ≠ i.index := fun he => hi (JointId.ext_index he.symm)
  simp [addName, name?, Array.getElem?_setIfInBounds_ne hne]

/-- A name is the one just given or an earlier one. -/
theorem name?_addName_cases (h : r.handles[id.index]? = some none) {i n : JointId}
    (hn : (r.addName id new j).name? i = some n) :
    (i = id ∧ n = new) ∨ (i ≠ id ∧ r.name? i = some n) := by
  by_cases hi : i = id
  · subst hi
    rw [name?_addName_self h] at hn
    cases hn
    exact Or.inl ⟨rfl, rfl⟩
  · rw [name?_addName_of_ne hi] at hn
    exact Or.inr ⟨hi, hn⟩

/-- A handle without a name is met by giving it one. -/
theorem met_addName (h : r.handles[id.index]? = some none) : Met r [id] (r.addName id new j) where
  keeps := by
    intro i n hn
    have hi : i ≠ id := by
      rintro rfl
      simp [name?, h] at hn
    rw [name?_addName_of_ne hi, hn]
  meets := by
    intro i hi
    rw [List.mem_singleton.mp hi]
    exact ⟨new, name?_addName_self h⟩
  only := by
    intro i n hn
    rcases name?_addName_cases h hn with ⟨rfl, -⟩ | ⟨-, hn⟩
    · exact Or.inr List.mem_cons_self
    · exact Or.inl hn

/-- Each new name takes one handle from those without one. -/
theorem count_addName (h : r.handles[id.index]? = some none) :
    (r.addName id new j).handles.count none + 1 = r.handles.count none := by
  obtain ⟨hlt, hnone⟩ := Array.getElem?_eq_some_iff.mp h
  have hpos : 0 < r.handles.count none := Array.count_pos_iff.mpr (Array.mem_of_getElem? h)
  show (r.handles.setIfInBounds id.index (some new)).count none + 1 = _
  rw [Array.setIfInBounds_def, dif_pos hlt, Array.count_set, hnone]
  simp only [beq_self_eq_true, if_true]
  rw [if_neg (by simp)]
  omega

/-- A name is given faithfully if the joint of the handle is the next one to be kept. -/
theorem faithful_addName (hf : Faithful k r) (h : r.handles[id.index]? = some none)
    (hj : k.get? id = some j) (hnew : new.index = r.kept.size) :
    Faithful k (r.addName id new j) := by
  have hsize : (r.addName id new j).kept.size = r.kept.size + 1 := Array.size_push _
  have hcount : (r.addName id new j).handles.count none + 1 = _ := count_addName h
  have hcount' := hf.count_eq
  refine {
    size_eq := Array.size_setIfInBounds.trans hf.size_eq, count_eq := by omega
    inside := ?_, kept_eq := ?_, injective := ?_, onto := ?_ }
  · intro i n hn
    rw [hsize]
    rcases name?_addName_cases h hn with ⟨-, rfl⟩ | ⟨-, hn⟩
    · omega
    · exact Nat.lt_succ_of_lt (hf.inside hn)
  · intro i n hn
    show (r.kept.push j)[n.index]? = _
    rcases name?_addName_cases h hn with ⟨rfl, rfl⟩ | ⟨-, hn⟩
    · rw [hnew, Array.getElem?_push_size, hj]
    · rw [Array.getElem?_push, if_neg (Nat.ne_of_lt (hf.inside hn))]
      exact hf.kept_eq hn
  · -- the new name stands past all names that were given, so that no other handle has it
    intro a b n ha hb
    rcases name?_addName_cases h ha with ⟨rfl, rfl⟩ | ⟨-, ha'⟩
    · rcases name?_addName_cases h hb with ⟨rfl, -⟩ | ⟨-, hb'⟩
      · rfl
      · exact absurd (hf.inside hb') (by omega)
    · rcases name?_addName_cases h hb with ⟨rfl, rfl⟩ | ⟨-, hb'⟩
      · exact absurd (hf.inside ha') (by omega)
      · exact hf.injective ha' hb'
  · intro m hm
    rw [hsize] at hm
    rcases Nat.lt_succ_iff_lt_or_eq.mp hm with hm | rfl
    · obtain ⟨i, n, hn, he⟩ := hf.onto m hm
      exact ⟨i, n, (met_addName h).keeps hn, he⟩
    · exact ⟨id, new, name?_addName_self h, hnew⟩

end AddName

/-- What one handle adds to a renumbering. -/
theorem met_of_rename {k : Skeleton} {id new : JointId} {r t : Renumbering}
    (hf : Faithful k r) (hk : k.size ≤ UInt32.size) (h : rename k id r = .ok new t) :
    Faithful k t ∧ Met r [id] t ∧ t.name? id = some new := by
  rcases rename_eq_ok h with ⟨hnew, rfl⟩ | ⟨j, hnone, hj, hnew, rfl⟩
  · refine ⟨hf, ⟨fun hj => hj, ?_, Or.inl⟩, hnew⟩
    intro i hi
    rw [List.mem_singleton.mp hi]
    exact ⟨new, hnew⟩
  · -- a name is still missing, so the next one is below `UInt32.size`
    have hpos : 0 < r.handles.count none := Array.count_pos_iff.mpr (Array.mem_of_getElem? hnone)
    have hcount := hf.count_eq
    have hindex : new.index = r.kept.size := by
      rw [hnew]
      exact JointId.index_ofNat (by omega)
    exact ⟨faithful_addName hf hnone hj hindex, met_addName hnone, name?_addName_self hnone⟩

/-- The renaming of a finished renumbering; handles it did not meet are left alone. -/
def newName (r : Renumbering) (j : JointId) : JointId := (r.name? j).getD j

/-- A node is renamed by the names of its two handles, which it has met then. -/
theorem renameNode_eq_ok {k : Skeleton} {n n' : Node} {r t : Renumbering} (hf : Faithful k r)
    (hk : k.size ≤ UInt32.size) (h : renameNode k n r = .ok n' t) :
    Faithful k t ∧ Met r [n.entry, n.exit] t ∧
      ∃ entry exit, t.name? n.entry = some entry ∧ t.name? n.exit = some exit ∧
        n' = { n with entry, exit } := by
  simp only [renameNode, Outcome.bind_eq_ok, Outcome.pure_eq_ok] at h
  obtain ⟨entry, u, hentry, exit, t', hexit, rfl, rfl⟩ := h
  obtain ⟨hf', hmet, hname⟩ := met_of_rename hf hk hentry
  obtain ⟨hf'', hmet', hname'⟩ := met_of_rename hf' hk hexit
  exact ⟨hf'', hmet.trans hmet', entry, exit, hmet'.keeps hname, hname', rfl⟩

/-- A row is renamed by one renaming, though the names are given out on the way: a handle keeps the
name that it got first. -/
theorem mapM_renameNode_eq_ok {k : Skeleton} {row row' : List Node} {r t : Renumbering}
    (hf : Faithful k r) (hk : k.size ≤ UInt32.size)
    (h : (row.mapM (renameNode k)) r = .ok row' t) :
    Faithful k t ∧ Met r (Row.handles row) t ∧ row' = row.map (Node.rename t.newName) := by
  induction row generalizing r row' with
  | nil =>
    obtain ⟨rfl, rfl⟩ := Outcome.mapM_nil_eq_ok.mp h
    exact ⟨hf, Met.refl r, rfl⟩
  | cons n row ih =>
    obtain ⟨n', u, rest, hn, hrest, rfl⟩ := Outcome.mapM_cons_eq_ok.mp h
    obtain ⟨hf', hmet, entry, exit, hentry, hexit, rfl⟩ := renameNode_eq_ok hf hk hn
    -- names given to the first node are kept while the others get theirs
    obtain ⟨hf'', hmet', rfl⟩ := ih hf' hrest
    refine ⟨hf'', hmet.trans hmet', ?_⟩
    have hentry' := hmet'.keeps hentry
    have hexit' := hmet'.keeps hexit
    simp [Node.rename, newName, hentry', hexit']

end Renumbering

/-! ## Compaction -/

open Renumbering in
/-- A compaction renames the row and keeps exactly the joints of its handles. -/
theorem Skeleton.compact_eq_ok {k : Skeleton} {row : List Node} {c : Compacted}
    (hk : k.size ≤ UInt32.size) (h : k.compact row = .ok c) :
    ∃ ρ, c.nodes = row.map (Node.rename ρ) ∧ Renamed ρ (Row.handles row) k c.skeleton ∧
      c.freed = k.size - c.skeleton.size := by
  unfold compact at h
  split at h
  · rename_i nodes r hrow
    cases h
    obtain ⟨hf, hmet, hnodes⟩ := mapM_renameNode_eq_ok (faithful_start k) hk hrow
    have hcount := hf.count_eq
    -- the final renumbering names the handles of the row and no others
    have hname : ∀ j ∈ Row.handles row, r.name? j = some (r.newName j) := by
      intro j hj
      obtain ⟨new, hnew⟩ := hmet.meets j hj
      rw [newName, hnew, Option.getD_some]
    refine ⟨r.newName, hnodes, ⟨?_, ?_, ?_, ?_, ?_⟩, rfl⟩
    · intro i hi j hj he
      exact hf.injective (hname i hi) (he ▸ hname j hj)
    · exact fun j hj => hf.inside (hname j hj)
    · exact fun j hj => hf.kept_eq (hname j hj)
    · intro m hm
      obtain ⟨j, new, hnew, rfl⟩ := hf.onto m hm
      have hj : j ∈ Row.handles row := by
        rcases hmet.only hnew with hj | hj
        · rw [name?_start] at hj
          cases hj
        · exact hj
      refine ⟨j, hj, ?_⟩
      rw [newName, hnew, Option.getD_some]
    · show r.kept.size ≤ k.size
      omega
  · cases h

/-! ## Rows under new names -/

section Rows

variable {ρ : JointId → JointId} {used : List JointId} {k k' : Skeleton}

/-- An exit in step is in step under its new name. -/
theorem InSync.renamed (hr : Renamed ρ used k k') {n : Node} (h : InSync k n)
    (hentry : n.entry ∈ used) (hexit : n.exit ∈ used) : InSync k' (n.rename ρ) := by
  obtain ⟨e, he, hx⟩ := h
  exact ⟨e, (hr.get?_eq _ hentry).trans he, (hr.get?_eq _ hexit).trans hx⟩

/-- A renaming that tells handles apart keeps the order of a row. -/
theorem Row.IsPreorder.renamed (hr : Renamed ρ used k k') {start : List JointId}
    {row : List Node} (h : IsPreorder start row) (hstart : start ⊆ used)
    (hrow : handles row ⊆ used) : IsPreorder (start.map ρ) (row.map (Node.rename ρ)) := by
  induction row generalizing start with
  | nil => trivial
  | cons n row ih =>
    obtain ⟨hn, hrest⟩ := h
    have hentry : n.entry ∈ used := hstart hn
    have hexit : n.exit ∈ used := hrow (exit_mem_handles List.mem_cons_self)
    refine ⟨List.mem_map_of_mem hn, ?_⟩
    -- different handles keep different names, so the way back is renamed as a whole
    have hextend : extend (start.map ρ) (n.rename ρ) = (extend start n).map ρ := by
      show ρ n.exit :: backTo (ρ n.entry) (start.map ρ) = _
      rw [backTo_map fun i hi he => hr.injective i (hstart hi) n.entry hentry he]
      rfl
    rw [hextend]
    apply ih hrest
    · intro j hj
      rcases List.mem_cons.mp hj with rfl | hj
      · exact hexit
      · exact hstart ((backTo_sublist n.entry start).subset hj)
    · intro j hj
      exact hrow (List.mem_append_right [n.entry, n.exit] hj)

/-- The first node of a row stands on the root. -/
theorem Row.root_mem_handles {root : JointId} {row : List Node} (h : IsPreorder [root] row)
    (hne : row ≠ []) : root ∈ handles row := by
  cases row with
  | nil => exact absurd rfl hne
  | cons n row =>
    rw [← List.mem_singleton.mp h.1]
    exact entry_mem_handles List.mem_cons_self

/-- A rooted row is rooted after a compaction, on the joint that the root is renamed to. -/
theorem Rooted.renamed {origin : Vec} {root : JointId} {row : List Node} {id : UInt32}
    (h : Rooted origin root row k id) (hne : row ≠ [])
    (hr : Renamed ρ (Row.handles row) k k') :
    Rooted origin (ρ root) (row.map (Node.rename ρ)) k' id := by
  have hroot : root ∈ Row.handles row := Row.root_mem_handles h.preorder hne
  have hused : ∀ j ∈ root :: row.map (·.exit), j ∈ Row.handles row := by
    intro j hj
    rcases List.mem_cons.mp hj with rfl | hj
    · exact hroot
    · obtain ⟨n, hn, rfl⟩ := List.mem_map.mp hj
      exact Row.exit_mem_handles hn
  have hexits : ρ root :: (row.map (Node.rename ρ)).map (·.exit) =
      (root :: row.map (·.exit)).map ρ := by
    simp [Node.rename]
  refine {
    distinct := ?_, preorder := ?_, inside := ?_, size_le := hr.size_le.trans h.size_le
    ground := (hr.get?_eq root hroot).trans h.ground }
  · rw [Row.DistinctExits, hexits]
    exact List.Nodup.map_on (fun i hi j hj => hr.injective i (hused i hi) j (hused j hj)) h.distinct
  · exact h.preorder.renamed hr (by simpa using hroot) (List.Subset.refl _)
  · rw [hexits]
    intro j hj
    obtain ⟨i, hi, rfl⟩ := List.mem_map.mp hj
    exact hr.inside i (hused i hi)

end Rows

end PlantGrowth
