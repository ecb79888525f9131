import PlantGrowth.Node
import Mathlib.Data.List.Chain
import Mathlib.Data.List.DropRight
import Mathlib.Data.List.Nodup
import Mathlib.Logic.Relation

/-!
# Rows of nodes as trees in preorder

A row of nodes on a skeleton is read as a tree: a node is the parent of the nodes that
start at its exit, and the nodes that start at the root joint have no parent. The row lists
the tree in preorder if every node starts on the way from the end of the node before it back
to the root. That way is the `trail` of the row so far, and `IsPreorder` says that every node
starts on the trail.

`IsPreorder.mono` is what makes expansion local: a row stays in preorder when its trail gets
longer. `mem_trail_concat` names the joints of a trail as the exits of the last node and its
ancestors, and `IsPreorder.induction` proves a property of all nodes from the root upwards.
-/

set_option autoImplicit false

namespace PlantGrowth.Row

/-! ## Trails -/

/-- The part of a trail from a joint of it back to the root. -/
def backTo (j : JointId) (trail : List JointId) : List JointId := trail.dropWhile (· ≠ j)

theorem backTo_cons_self (j : JointId) (trail : List JointId) :
    backTo j (j :: trail) = j :: trail := by
  simp [backTo]

theorem backTo_cons_of_ne {i j : JointId} (h : i ≠ j) (trail : List JointId) :
    backTo j (i :: trail) = backTo j trail := by
  simp [backTo, h]

/-- Going back only takes joints off the trail. -/
theorem backTo_sublist (j : JointId) (trail : List JointId) : (backTo j trail).Sublist trail :=
  List.dropWhile_sublist _

/-- A joint of the trail stands first on the way back from it. -/
theorem backTo_eq_cons {j : JointId} {trail : List JointId} (h : j ∈ trail) :
    ∃ rest, backTo j trail = j :: rest := by
  induction trail with
  | nil => cases h
  | cons i trail ih =>
    by_cases hi : i = j
    · subst hi
      exact ⟨trail, backTo_cons_self i trail⟩
    · rw [backTo_cons_of_ne hi]
      exact ih ((List.mem_cons.mp h).resolve_left fun e => hi e.symm)

/-- A joint on the trail is still on it after going back to it. -/
theorem mem_backTo {j : JointId} {trail : List JointId} (h : j ∈ trail) : j ∈ backTo j trail := by
  obtain ⟨rest, hr⟩ := backTo_eq_cons h
  rw [hr]
  exact List.mem_cons_self

/-- Going back twice to one joint is going back once. -/
theorem backTo_backTo (j : JointId) (trail : List JointId) :
    backTo j (backTo j trail) = backTo j trail :=
  List.dropWhile_idempotent ..

/-- A longer trail has a longer way back. -/
theorem backTo_mono {j : JointId} {trail longer : List JointId} (h : trail.Sublist longer)
    (hj : j ∈ trail) : (backTo j trail).Sublist (backTo j longer) := by
  induction h with
  | slnil => cases hj
  | @cons l₁ l₂ i hsub ih =>
    by_cases hi : i = j
    · subst hi
      rw [backTo_cons_self]
      exact ((backTo_sublist i l₁).trans hsub).cons i
    · rw [backTo_cons_of_ne hi]
      exact ih hj
  | @cons_cons l₁ l₂ i hsub ih =>
    by_cases hi : i = j
    · subst hi
      rw [backTo_cons_self, backTo_cons_self]
      exact hsub.cons_cons i
    · rw [backTo_cons_of_ne hi, backTo_cons_of_ne hi]
      exact ih ((List.mem_cons.mp hj).resolve_left fun e => hi e.symm)

/-- The way back from a renamed joint, where no other joint of the trail has its name. -/
theorem backTo_map {ρ : JointId → JointId} {j : JointId} {trail : List JointId}
    (h : ∀ i ∈ trail, ρ i = ρ j → i = j) :
    backTo (ρ j) (trail.map ρ) = (backTo j trail).map ρ := by
  induction trail with
  | nil => rfl
  | cons i trail ih =>
    by_cases hi : i = j
    · subst hi
      rw [List.map_cons, backTo_cons_self, backTo_cons_self, List.map_cons]
    · have hne : ρ i ≠ ρ j := fun e => hi (h i List.mem_cons_self e)
      rw [List.map_cons, backTo_cons_of_ne hne, backTo_cons_of_ne hi]
      exact ih fun k hk => h k (List.mem_cons_of_mem i hk)

/-- The trail after one more node. -/
def extend (trail : List JointId) (n : Node) : List JointId := n.exit :: backTo n.entry trail

/-- The trail after a row of nodes. -/
def trail (start : List JointId) (row : List Node) : List JointId := row.foldl extend start

@[simp] theorem trail_nil (start : List JointId) : trail start [] = start := rfl

@[simp] theorem trail_cons (start : List JointId) (n : Node) (row : List Node) :
    trail start (n :: row) = trail (extend start n) row := rfl

/-- The trail behind two rows is that behind the second, started on the trail of the first. -/
theorem trail_append (start : List JointId) (row more : List Node) :
    trail start (row ++ more) = trail (trail start row) more :=
  List.foldl_append

/-- A trail has the joints it started with and exits of the nodes added since. -/
theorem mem_trail {start : List JointId} {row : List Node} {j : JointId}
    (h : j ∈ trail start row) : j ∈ start ∨ ∃ m ∈ row, m.exit = j := by
  induction row generalizing start with
  | nil => exact Or.inl h
  | cons n row ih =>
    rcases ih h with he | ⟨m, hm, he⟩
    · rcases List.mem_cons.mp he with he | he
      · exact Or.inr ⟨n, List.mem_cons_self, he.symm⟩
      · exact Or.inl ((backTo_sublist n.entry start).subset he)
    · exact Or.inr ⟨m, List.mem_cons_of_mem n hm, he⟩

/-- A trail within a longer one stays within it behind one more node. -/
theorem extend_mono {start longer : List JointId} (h : start.Sublist longer) {n : Node}
    (hn : n.entry ∈ start) : (extend start n).Sublist (extend longer n) :=
  (backTo_mono h hn).cons_cons n.exit

/-! ## Preorder -/

/-- Every node starts on the trail of the nodes before it. -/
def IsPreorder : List JointId → List Node → Prop
  | _, [] => True
  | start, n :: row => n.entry ∈ start ∧ IsPreorder (extend start n) row

namespace IsPreorder

/-- A row is in order if its parts are, the second one behind the trail of the first. -/
theorem append_iff {start : List JointId} {row more : List Node} :
    IsPreorder start (row ++ more) ↔
      IsPreorder start row ∧ IsPreorder (trail start row) more := by
  induction row generalizing start with
  | nil => simp [IsPreorder]
  | cons n row ih =>
    rw [List.cons_append, trail_cons, IsPreorder, IsPreorder, ih, and_assoc]

/-- Joints that are added to the trail take nothing away from where nodes may start. -/
theorem mono {start longer : List JointId} {row : List Node} (h : start.Sublist longer)
    (hrow : IsPreorder start row) : IsPreorder longer row := by
  induction row generalizing start longer with
  | nil => trivial
  | cons n row ih =>
    obtain ⟨hn, hrow⟩ := hrow
    exact ⟨h.subset hn, ih (extend_mono h hn) hrow⟩

/-- Every node starts where the trail starts or at the exit of a node before it. -/
theorem entry_mem {start : List JointId} {row : List Node} (h : IsPreorder start row)
    {n : Node} (hn : n ∈ row) : n.entry ∈ start ∨ ∃ m ∈ row, m.exit = n.entry := by
  obtain ⟨before, after, rfl⟩ := List.append_of_mem hn
  rcases mem_trail (append_iff.mp h).2.1 with he | ⟨m, hm, he⟩
  · exact Or.inl he
  · exact Or.inr ⟨m, List.mem_append_left _ hm, he⟩

/-- The last node may end elsewhere: its exit is on the trail, but no node starts there. -/
theorem relink_last {start tail : List JointId} {front : List Node} {last : Node}
    (h : IsPreorder start (front ++ [last])) (hsub : tail.Sublist (trail start (front ++ [last])))
    (hnot : last.exit ∉ tail) (new : JointId) :
    IsPreorder start (front ++ [{ last with exit := new }]) ∧
      (new :: tail).Sublist (trail start (front ++ [{ last with exit := new }])) := by
  rw [append_iff] at h
  rw [trail_append] at hsub
  rw [append_iff, trail_append]
  refine ⟨⟨h.1, h.2.1, trivial⟩, ?_⟩
  have hback : tail.Sublist (backTo last.entry (trail start front)) := by
    rcases List.sublist_cons_iff.mp hsub with hback | ⟨rest, rfl, -⟩
    · exact hback
    · exact absurd List.mem_cons_self hnot
  exact hback.cons_cons new

end IsPreorder

/-! ## Ancestry -/

/-- `m` is the node of the row at whose exit the node `n` of it starts. -/
def Parent (row : List Node) (m n : Node) : Prop := m ∈ row ∧ n ∈ row ∧ n.entry = m.exit

/-- `m` is on the way from `n` to the root, `n` itself left out. -/
abbrev Above (row : List Node) (m n : Node) : Prop := Relation.TransGen (Parent row) m n

/-- `m` is on the way from `n` to the root, `n` itself included. -/
abbrev OnPath (row : List Node) (m n : Node) : Prop := Relation.ReflTransGen (Parent row) m n

theorem mem_of_above {row : List Node} {m n : Node} (h : Above row m n) : m ∈ row := by
  obtain ⟨a, hparent, -⟩ := Relation.TransGen.head'_iff.mp h
  exact hparent.1

/-- No two nodes of a row end at the same joint, and none ends at the root. -/
def DistinctExits (root : JointId) (row : List Node) : Prop :=
  (root :: row.map (·.exit)).Nodup

namespace DistinctExits

variable {root : JointId} {row : List Node}

theorem exit_ne_root (h : DistinctExits root row) {n : Node} (hn : n ∈ row) : n.exit ≠ root := by
  intro he
  apply (List.nodup_cons.mp h).1
  rw [← he]
  exact List.mem_map_of_mem hn

/-- Nodes with one exit are one node. -/
theorem eq_of_exit_eq (h : DistinctExits root row) {m n : Node} (hm : m ∈ row) (hn : n ∈ row)
    (he : m.exit = n.exit) : m = n :=
  List.inj_on_of_nodup_map (List.nodup_cons.mp h).2 hm hn he

/-- A node has at most one parent. -/
theorem parent_unique (h : DistinctExits root row) {a b n : Node} (ha : Parent row a n)
    (hb : Parent row b n) : a = b :=
  h.eq_of_exit_eq ha.1 hb.1 (ha.2.2.symm.trans hb.2.2)

/-- What is above a node with a parent is the parent or above it. -/
theorem above_iff (h : DistinctExits root row) {a m n : Node} (hm : Parent row m n) :
    Above row a n ↔ OnPath row a m := by
  constructor
  · intro ha
    obtain ⟨b, hab, hbn⟩ := Relation.TransGen.tail'_iff.mp ha
    rw [← h.parent_unique hbn hm]
    exact hab
  · exact fun ha => Relation.TransGen.tail' ha hm

theorem not_above_of_entry_eq_root (h : DistinctExits root row) {a n : Node}
    (hn : n.entry = root) : ¬ Above row a n := by
  intro ha
  obtain ⟨b, -, hb⟩ := Relation.TransGen.tail'_iff.mp ha
  exact h.exit_ne_root hb.1 (hb.2.2.symm.trans hn)

end DistinctExits

/-- The path to a node is the node and what is above it. -/
theorem onPath_iff_eq_or_above {row : List Node} {a n : Node} :
    OnPath row a n ↔ a = n ∨ Above row a n := by
  exact Relation.reflTransGen_iff_eq_or_transGen.trans (or_congr_left eq_comm)

/-- Each joint of the list is the exit of a node of the row that starts at the next one. -/
def Descends (row : List Node) (joints : List JointId) : Prop :=
  joints.IsChain fun i j => ∃ n ∈ row, n.exit = i ∧ n.entry = j

/-- A trail descends from joint to joint all through a row. -/
theorem Descends.trail {row : List Node} {start : List JointId} (hs : Descends row start)
    {part : List Node} (hpart : IsPreorder start part) (hsub : part ⊆ row) :
    Descends row (trail start part) := by
  induction part generalizing start with
  | nil => exact hs
  | cons n part ih =>
    obtain ⟨hn, hpart⟩ := hpart
    refine ih ?_ hpart fun m hm => hsub (List.mem_cons_of_mem n hm)
    -- the new exit goes in front of the way back from the entry, which still leads down
    obtain ⟨rest, hr⟩ := backTo_eq_cons hn
    have hback : Descends row (backTo n.entry start) := hs.suffix (List.dropWhile_suffix _)
    show Descends row (n.exit :: backTo n.entry start)
    rw [hr] at hback ⊢
    exact List.isChain_cons_cons.mpr ⟨⟨n, hsub List.mem_cons_self, rfl, rfl⟩, hback⟩

/-- On the way down from a node stand the exits of its ancestors, and last the root. -/
theorem Descends.mem_cases {root : JointId} {row : List Node} (hd : DistinctExits root row)
    {m : Node} (hm : m ∈ row) {rest : List JointId} (h : Descends row (m.exit :: rest))
    (hlast : (m.exit :: rest).getLast? = some root) {j : JointId} (hj : j ∈ rest) :
    (∃ a, Above row a m ∧ j = a.exit) ∨ j = root := by
  induction rest generalizing m with
  | nil => cases hj
  | cons i rest ih =>
    obtain ⟨⟨n, hn, hexit, hentry⟩, htail⟩ := List.isChain_cons_cons.mp h
    obtain rfl := hd.eq_of_exit_eq hn hm hexit
    cases rest with
    | nil =>
      -- no joint but the last one is left, and that is the root
      simp only [List.getLast?_cons_cons, List.getLast?_singleton, Option.some.injEq] at hlast
      subst hlast
      exact Or.inr (List.mem_singleton.mp hj)
    | cons k rest =>
      -- the next joint is the exit of the parent, from where the induction goes on
      obtain ⟨⟨p, hp, hpexit, -⟩, -⟩ := List.isChain_cons_cons.mp htail
      subst hpexit
      have hparent : Parent row p n := ⟨hp, hn, hentry⟩
      rcases List.mem_cons.mp hj with rfl | hj
      · exact Or.inl ⟨p, .single hparent, rfl⟩
      · rw [List.getLast?_cons_cons] at hlast
        rcases ih hp htail hlast hj with ⟨a, ha, rfl⟩ | rfl
        · exact Or.inl ⟨a, ha.tail hparent, rfl⟩
        · exact Or.inr rfl

theorem getLast?_trail {root : JointId} {start : List JointId} (hs : start.getLast? = some root)
    {row : List Node} (h : IsPreorder start row) : (trail start row).getLast? = some root := by
  induction row generalizing start with
  | nil => exact hs
  | cons n row ih =>
    refine ih ?_ h.2
    obtain ⟨rest, hr⟩ := backTo_eq_cons h.1
    obtain ⟨front, hfront⟩ := List.dropWhile_suffix (l := start) (· ≠ n.entry)
    -- what the way back leaves out stands in front, so the last joint is the same
    have hlast : (backTo n.entry start).getLast? = some root := by
      rw [hr, ← hs, ← hfront, List.getLast?_append]
      show _ = (backTo n.entry start).getLast?.or _
      rw [hr, List.getLast?_cons]
      rfl
    rw [extend, hr, List.getLast?_cons_cons, ← hr, hlast]

/-- A row in preorder ends on a trail of the exits of its last node and of the ancestors of that
node, with the root at the end. -/
theorem mem_trail_concat {root : JointId} {row before after : List Node} {m : Node}
    (hd : DistinctExits root row) (hp : IsPreorder [root] row) (hrow : row = before ++ m :: after)
    {j : JointId} (hj : j ∈ trail [root] (before ++ [m])) :
    j = m.exit ∨ (∃ a, Above row a m ∧ j = a.exit) ∨ j = root := by
  have hrow' : row = (before ++ [m]) ++ after := by simp [hrow]
  have hpart : IsPreorder [root] (before ++ [m]) := by
    rw [hrow'] at hp
    exact (IsPreorder.append_iff.mp hp).1
  have hsub : before ++ [m] ⊆ row := by simp [hrow]
  have hdesc : Descends row (trail [root] (before ++ [m])) :=
    Descends.trail (List.isChain_singleton root) hpart hsub
  have hlast : (trail [root] (before ++ [m])).getLast? = some root := getLast?_trail rfl hpart
  rw [trail_append] at hj hdesc hlast
  rcases List.mem_cons.mp hj with rfl | hj
  · exact Or.inl rfl
  · exact Or.inr (hdesc.mem_cases hd (by simp [hrow]) hlast hj)

/-- A property of the nodes at the root that passes from parents to children holds of all. -/
theorem IsPreorder.induction {root : JointId} {row : List Node} (h : IsPreorder [root] row)
    {motive : Node → Prop} (atRoot : ∀ n ∈ row, n.entry = root → motive n)
    (below : ∀ m n, Parent row m n → motive m → motive n) : ∀ n ∈ row, motive n := by
  -- the joints of the trail are the root and exits of nodes with the property
  have key : ∀ (part : List Node) (start : List JointId), IsPreorder start part → part ⊆ row →
      (∀ j ∈ start, j = root ∨ ∃ m ∈ row, m.exit = j ∧ motive m) → ∀ n ∈ part, motive n := by
    intro part
    induction part with
    | nil => simp
    | cons n part ih =>
      intro start hpart hsub hstart
      have hn : n ∈ row := hsub List.mem_cons_self
      have hmotive : motive n := by
        rcases hstart n.entry hpart.1 with he | ⟨m, hm, he, hmm⟩
        · exact atRoot n hn he
        · exact below m n ⟨hm, hn, he.symm⟩ hmm
      have hrest := ih (extend start n) hpart.2 (fun m hm => hsub (List.mem_cons_of_mem n hm))
        (fun j hj => by
          rcases List.mem_cons.mp hj with rfl | hj
          · exact Or.inr ⟨n, hn, rfl, hmotive⟩
          · exact hstart j ((backTo_sublist n.entry start).subset hj))
      intro m hm
      rcases List.mem_cons.mp hm with rfl | hm
      · exact hmotive
      · exact hrest m hm
  exact key row [root] h (List.Subset.refl row) (by simp)

end PlantGrowth.Row
