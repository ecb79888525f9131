import PlantGrowth.Proofs.JointCount
import PlantGrowth.Proofs.Recompaction

/-!
# Handles in the order of mention

The handles of a row are numbered if, read node by node, each of them is either one that was
mentioned before or the next one in order (`Row.Numbered`). A compaction numbers the handles of its
row (`Skeleton.numbered_of_compact`), and it leaves a row as it is whose handles are numbered and
use all joints (`Skeleton.compact_of_numbered`). Frames change no handles, so the handles of every
reachable plant are numbered (`Plant.Reachable.numbered`), and to compact it once more would change
nothing.
-/

set_option autoImplicit false

namespace PlantGrowth

/-! ## Numbered handles -/

/-- The handles, where the first `m` were mentioned before: each is one of those mentioned or the
next one, and at the end the first `n` have been mentioned. -/
inductive Row.Numbered : Nat → List JointId → Nat → Prop
  | nil (m : Nat) : Numbered m [] m
  | old {m n : Nat} {j : JointId} {js : List JointId} :
      j.index < m → Numbered m js n → Numbered m (j :: js) n
  | next {m n : Nat} {j : JointId} {js : List JointId} :
      j.index = m → Numbered (m + 1) js n → Numbered m (j :: js) n

namespace Row.Numbered

variable {l m n : Nat} {j : JointId} {js is : List JointId}

theorem le (h : Numbered m js n) : m ≤ n := by
  induction h with
  | nil => exact Nat.le_refl _
  | old _ _ ih => exact ih
  | next _ _ ih => exact Nat.le_of_succ_le ih

/-- Lists numbered one behind the other make one numbered list. -/
theorem append (h : Numbered l js m) (h' : Numbered m is n) : Numbered l (js ++ is) n := by
  induction h with
  | nil => exact h'
  | old hj _ ih => exact .old hj (ih h')
  | next hj _ ih => exact .next hj (ih h')

theorem exists_of_cons (h : Numbered l (j :: js) n) :
    ∃ m, Numbered l [j] m ∧ Numbered m js n := by
  cases h with
  | old hj hrest => exact ⟨l, .old hj (.nil l), hrest⟩
  | next hj hrest => exact ⟨l + 1, .next hj (.nil _), hrest⟩

end Row.Numbered

/-! ## Renumberings that keep all names -/

namespace Renumbering

open Row (Numbered)

variable {k : Skeleton} {r t : Renumbering} {l m n : Nat}

/-- The renumbering has met the first `m` handles and left them as they are. -/
structure Identity (k : Skeleton) (m : Nat) (r : Renumbering) : Prop where
  le_size : m ≤ k.size
  met : ∀ j : JointId, j.index < m → r.handles[j.index]? = some (some j)
  unmet : ∀ i, m ≤ i → i < k.size → r.handles[i]? = some none
  kept_eq : r.kept = k.joints.extract 0 m

theorem identity_start (k : Skeleton) : Identity k 0 (start k) where
  le_size := Nat.zero_le _
  met j hj := absurd hj (Nat.not_lt_zero _)
  unmet i _ hi := by
    show (Array.replicate k.size none)[i]? = some none
    rw [Array.getElem?_replicate, if_pos hi]
  kept_eq := by simp [start]

/-- A renumbering that renames nothing has kept the first joints. -/
theorem Identity.size_kept (h : Identity k m r) : r.kept.size = m := by
  rw [h.kept_eq, Array.size_extract, Nat.sub_zero]
  exact Nat.min_eq_left h.le_size

/-- A numbered handle keeps its name. -/
theorem rename_of_numbered (hr : Identity k l r) {j : JointId} (hj : Numbered l [j] m)
    (hm : m ≤ k.size) : ∃ t, rename k j r = .ok j t ∧ Identity k m t := by
  unfold rename
  cases hj with
  | old hlt hnil =>
    cases hnil
    rw [hr.met j hlt]
    exact ⟨r, rfl, hr⟩
  | next heq hnil =>
    cases hnil
    have hlt : l < k.size := hm
    obtain ⟨x, hx⟩ := Skeleton.exists_get? (heq.symm ▸ hlt : j.index < k.size)
    have hsize : l < r.handles.size := (Array.getElem?_eq_some_iff.mp (hr.unmet l le_rfl hlt)).1
    have hname : (⟨.ofNat r.kept.size⟩ : JointId) = j := by
      rw [hr.size_kept, ← heq]
      exact JointId.ext_index (JointId.index_ofNat j.word.toNat_lt)
    rw [heq, hr.unmet l le_rfl hlt, hx]
    dsimp only
    rw [hname]
    refine ⟨_, rfl, hm, ?_, ?_, ?_⟩
    · intro i hi
      rcases Nat.lt_succ_iff_lt_or_eq.mp hi with hi | hi
      · rw [Array.getElem?_setIfInBounds_ne (Nat.ne_of_gt hi)]
        exact hr.met i hi
      · rw [hi, Array.getElem?_setIfInBounds_self_of_lt hsize, JointId.ext_index (hi.trans heq.symm)]
    · intro i hi hik
      rw [Array.getElem?_setIfInBounds_ne (Nat.ne_of_lt hi)]
      exact hr.unmet i (Nat.le_of_succ_le hi) hik
    · -- one more joint is kept, and it is the next one
      have hget : k.joints[l] = x := by
        have hx' : k.joints[l]? = some x := heq ▸ hx
        exact (Array.getElem?_eq_some_iff.mp hx').2
      rw [hr.kept_eq, ← hget]
      rw [Array.push_extract_getElem hlt, Nat.zero_min]

/-- A node whose handles come next in number keeps them. -/
theorem renameNode_of_numbered (hr : Identity k l r) {a : Node}
    (ha : Numbered l [a.entry, a.exit] m) (hm : m ≤ k.size) :
    ∃ t, renameNode k a r = .ok a t ∧ Identity k m t := by
  obtain ⟨i, hentry, hexit⟩ := ha.exists_of_cons
  obtain ⟨u, hu, hr⟩ := rename_of_numbered hr hentry (hexit.le.trans hm)
  obtain ⟨t, ht, hr⟩ := rename_of_numbered hr hexit hm
  refine ⟨t, ?_, hr⟩
  simp only [renameNode, Outcome.bind_eq_ok, Outcome.pure_eq_ok]
  exact ⟨a.entry, u, hu, a.exit, t, ht, rfl, rfl⟩

/-- So does a row that is numbered from its start. -/
theorem mapM_renameNode_of_numbered (hr : Identity k l r) {row : List Node}
    (hrow : Numbered l (Row.handles row) n) (hn : n ≤ k.size) :
    ∃ t, (row.mapM (renameNode k)) r = .ok row t ∧ Identity k n t := by
  induction row generalizing l r with
  | nil =>
    cases hrow
    exact ⟨r, Outcome.mapM_nil_eq_ok.mpr ⟨rfl, rfl⟩, hr⟩
  | cons a row ih =>
    obtain ⟨i, hentry, hrow⟩ := hrow.exists_of_cons
    obtain ⟨m, hexit, hrow⟩ := hrow.exists_of_cons
    obtain ⟨u, hu, hr⟩ := renameNode_of_numbered hr (hentry.append hexit) (hrow.le.trans hn)
    obtain ⟨t, ht, hr⟩ := ih hr hrow
    exact ⟨t, Outcome.mapM_cons_eq_ok.mpr ⟨a, u, row, hu, ht, rfl⟩, hr⟩

/-! ## Names given in order -/

/-- The names that a renumbering gives out are numbered. -/
theorem numbered_of_rename {id new : JointId} (hf : Faithful k r) (hk : k.size ≤ UInt32.size)
    (h : rename k id r = .ok new t) : Numbered r.kept.size [new] t.kept.size := by
  rcases rename_eq_ok h with ⟨hname, rfl⟩ | ⟨j, hnone, hj, rfl, rfl⟩
  · exact .old (hf.inside hname) (.nil _)
  · -- a name is still missing, so the next one does not wrap
    have hpos : 0 < r.handles.count none := Array.count_pos_iff.mpr (Array.mem_of_getElem? hnone)
    have hcount := hf.count_eq
    have hsize : (r.addName id ⟨.ofNat r.kept.size⟩ j).kept.size = r.kept.size + 1 :=
      Array.size_push _
    rw [hsize]
    exact .next (JointId.index_ofNat (by omega)) (.nil _)

theorem numbered_of_renameNode {a b : Node} (hf : Faithful k r) (hk : k.size ≤ UInt32.size)
    (h : renameNode k a r = .ok b t) : Numbered r.kept.size [b.entry, b.exit] t.kept.size := by
  simp only [renameNode, Outcome.bind_eq_ok, Outcome.pure_eq_ok] at h
  obtain ⟨entry, u, hentry, exit, t', hexit, rfl, rfl⟩ := h
  have hf' := (met_of_rename hf hk hentry).1
  exact (numbered_of_rename hf hk hentry).append (numbered_of_rename hf' hk hexit)

/-- A row is numbered once it has been renamed. -/
theorem numbered_of_mapM {row row' : List Node} (hf : Faithful k r) (hk : k.size ≤ UInt32.size)
    (h : (row.mapM (renameNode k)) r = .ok row' t) :
    Numbered r.kept.size (Row.handles row') t.kept.size := by
  induction row generalizing r row' with
  | nil =>
    obtain ⟨rfl, rfl⟩ := Outcome.mapM_nil_eq_ok.mp h
    exact .nil _
  | cons a row ih =>
    obtain ⟨b, u, rest, hb, hrest, rfl⟩ := Outcome.mapM_cons_eq_ok.mp h
    have hf' := (renameNode_eq_ok hf hk hb).1
    exact (numbered_of_renameNode hf hk hb).append (ih hf' hrest)

end Renumbering

namespace Skeleton

/-- A compaction numbers the handles of the row. -/
theorem numbered_of_compact {k : Skeleton} {row : List Node} {c : Compacted}
    (hk : k.size ≤ UInt32.size) (h : k.compact row = .ok c) :
    Row.Numbered 0 (Row.handles c.nodes) c.skeleton.size := by
  unfold compact at h
  split at h
  · rename_i nodes r hrow
    cases h
    exact Renumbering.numbered_of_mapM (Renumbering.faithful_start k) hk hrow
  · cases h

/-- A compaction leaves a row as it is whose handles are numbered and use all joints. -/
theorem compact_of_numbered {k : Skeleton} {row : List Node}
    (h : Row.Numbered 0 (Row.handles row) k.size) : k.compact row = .ok ⟨k, row, 0⟩ := by
  obtain ⟨t, ht, hid⟩ :=
    Renumbering.mapM_renameNode_of_numbered (Renumbering.identity_start k) h le_rfl
  have hkept : t.kept = k.joints := by rw [hid.kept_eq, size, Array.extract_size]
  unfold compact
  rw [ht]
  dsimp only
  rw [hkept, size, Nat.sub_self]

end Skeleton

/-! ## Plants -/

theorem Row.handles_congr {row row' : List Node}
    (h : List.Forall₂ (fun n n' : Node => n'.entry = n.entry ∧ n'.exit = n.exit) row row') :
    handles row' = handles row := by
  induction h with
  | nil => rfl
  | cons hn _ ih => rw [handles_cons, handles_cons, hn.1, hn.2, ih]

namespace Plant

variable {σ : Type} [RandomSource σ] {origin : Vec} {p p' : Plant} {s t : Surroundings σ}

/-- A plant is sprouted with its root in the first place and the exit of its node in the second. -/
theorem numbered_of_sprout {letter : Char} {rules : Rules String} {params : GrowthParams}
    (h : sprout letter rules params origin s = .ok p t) :
    Row.Numbered 0 (Row.handles p.nodes) p.skeleton.size := by
  obtain ⟨node, m, hseed, rfl, -⟩ := sprout_eq_ok h
  obtain ⟨hatt, hentry⟩ := hseed.attached
  have hbound : (soil origin).size ≤ (0 : UInt32).toNat + 1 := Nat.le_refl 1
  have hexit : node.exit.index = (soil origin).size := by simpa using hatt.exit_index hbound
  have hsize : m.site.skeleton.size = 2 := hatt.size_eq
  show Row.Numbered 0 [node.entry, node.exit] m.site.skeleton.size
  rw [hsize]
  refine .next ?_ (.next hexit (.nil 2))
  rw [hentry]
  rfl

/-- Behind a generation the handles are numbered in the order of the row. -/
theorem Reachable.numbered_of_generate {tally : Tally} (hp : Reachable origin p)
    (h : p.generate s = .ok (p', tally) t) :
    Row.Numbered 0 (Row.handles p'.nodes) p'.skeleton.size := by
  obtain ⟨root, hroot⟩ := hp.sound.rooted
  obtain ⟨next, m, c, generation, hnext, hcompact, -, rfl, -, -⟩ := generate_eq_ok h
  exact Skeleton.numbered_of_compact (Expansion.size_le_of_replaceAll hnext hroot) hcompact

/-- The handles of every reachable plant are in the order of mention. -/
theorem Reachable.numbered (hp : Reachable origin p) :
    Row.Numbered 0 (Row.handles p.nodes) p.skeleton.size := by
  induction hp with
  | sprout h => exact numbered_of_sprout h
  | generate hp h _ => exact hp.numbered_of_generate h
  | tick hp h ih =>
    obtain ⟨nodes, k, source, hgrow, rfl, -⟩ := tick_eq_ok h
    -- a frame writes joints and leaves the handles alone
    show Row.Numbered 0 (Row.handles nodes) k.size
    rw [Row.handles_congr (OnSite.handles_of_growAll hgrow), OnSite.size_of_growAll hgrow]
    exact ih

end Plant

end PlantGrowth
