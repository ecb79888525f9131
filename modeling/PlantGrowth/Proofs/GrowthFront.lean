import PlantGrowth.Proofs.Reachable

/-!
# The growth front

Each joint has two flags that are computed from the flags of one other joint. This file says
what they mean for the tree as a whole: at the exit of a node, `ready` holds if all branches on
the way from the root are grown (`PathGrown`), and `extending` if the last of them is not grown
and all above it are (`PathExtending`). The entry of a node has the same two flags with the
node itself left out (`AboveGrown`, `NearestExtending`).

`Rooted.flags` proves it for rooted rows whose flags are in line, by induction from the root
upwards; `Plant.Reachable.exit_flags_iff` says it of every reachable plant.
-/

set_option autoImplicit false

namespace PlantGrowth

/-! ## Branches on the way to a node -/

namespace Row

/-- `m` is the nearest branch at or above `n`. -/
def LastBranch (row : List Node) (m n : Node) : Prop :=
  OnPath row m n ∧ m.branch?.isSome ∧ ∀ a, Above row m a → OnPath row a n → a.branch? = none

/-- `m` is the nearest branch above `n`, `n` itself left out. -/
def NearestBranch (row : List Node) (m n : Node) : Prop :=
  Above row m n ∧ m.branch?.isSome ∧ ∀ a, Above row m a → Above row a n → a.branch? = none

/-- Every branch on the way from the root to the node, the node included, is grown. -/
def PathGrown (row : List Node) (n : Node) : Prop :=
  ∀ m b, OnPath row m n → m.branch? = some b → b.isGrown = true

/-- Every branch above the node is grown. -/
def AboveGrown (row : List Node) (n : Node) : Prop :=
  ∀ m b, Above row m n → m.branch? = some b → b.isGrown = true

/-- The nearest branch at or above the node is not grown, but every branch above that one is. -/
def PathExtending (row : List Node) (n : Node) : Prop :=
  ∃ m b, LastBranch row m n ∧ m.branch? = some b ∧ b.isGrown = false ∧ AboveGrown row m

/-- The nearest branch above the node is not grown, but every branch above that one is. -/
def NearestExtending (row : List Node) (n : Node) : Prop :=
  ∃ m b, NearestBranch row m n ∧ m.branch? = some b ∧ b.isGrown = false ∧ AboveGrown row m

variable {root : JointId} {row : List Node} {m n : Node}

/-- No node is above itself. -/
theorem not_above_self (hd : DistinctExits root row) (hp : IsPreorder [root] row) (hn : n ∈ row) :
    ¬ Above row n n := by
  refine hp.induction (motive := fun n => ¬ Above row n n)
    (fun n _ he => hd.not_above_of_entry_eq_root he) ?_ n hn
  -- a node above itself would have its parent above itself
  intro m n hparent hm hself
  apply hm
  have hpath : OnPath row n m := (hd.above_iff hparent).mp hself
  exact Relation.TransGen.head' hparent hpath

/-- A branch is itself the last branch on its path. -/
theorem lastBranch_iff_of_branch (hd : DistinctExits root row) (hp : IsPreorder [root] row)
    (hn : n ∈ row) (hb : n.branch?.isSome) : LastBranch row m n ↔ m = n := by
  constructor
  · rintro ⟨hpath, -, hnone⟩
    rcases onPath_iff_eq_or_above.mp hpath with he | habove
    · exact he
    · rw [hnone n habove Relation.ReflTransGen.refl] at hb
      cases hb
  · rintro rfl
    refine ⟨Relation.ReflTransGen.refl, hb, ?_⟩
    intro a habove hpath
    exact absurd (Relation.TransGen.trans_left habove hpath) (not_above_self hd hp hn)

/-- For any other node that is the nearest branch above it. -/
theorem lastBranch_iff_of_not_branch (hb : n.branch? = none) :
    LastBranch row m n ↔ NearestBranch row m n := by
  constructor
  · rintro ⟨hpath, hm, hnone⟩
    rcases onPath_iff_eq_or_above.mp hpath with rfl | habove
    · rw [hb] at hm
      cases hm
    · exact ⟨habove, hm, fun a ha ha' => hnone a ha ha'.to_reflTransGen⟩
  · rintro ⟨habove, hm, hnone⟩
    refine ⟨habove.to_reflTransGen, hm, ?_⟩
    intro a ha ha'
    rcases onPath_iff_eq_or_above.mp ha' with rfl | ha'
    · exact hb
    · exact hnone a ha ha'

/-- The nearest branch above a node is the last one on the path to its parent. -/
theorem nearestBranch_iff_of_parent (hd : DistinctExits root row) {p : Node}
    (hparent : Parent row p n) : NearestBranch row m n ↔ LastBranch row m p := by
  simp only [NearestBranch, LastBranch, hd.above_iff hparent]

/-- All branches above a node have grown out exactly if those on the path to its parent have. -/
theorem aboveGrown_iff_of_parent (hd : DistinctExits root row) {p : Node}
    (hparent : Parent row p n) : AboveGrown row n ↔ PathGrown row p := by
  simp only [AboveGrown, PathGrown, hd.above_iff hparent]

theorem nearestExtending_iff_of_parent (hd : DistinctExits root row) {p : Node}
    (hparent : Parent row p n) : NearestExtending row n ↔ PathExtending row p := by
  simp only [NearestExtending, PathExtending, nearestBranch_iff_of_parent hd hparent]

/-- The path to a node has grown out if the branches above it have, and the node itself if it is a
branch. -/
theorem pathGrown_iff : PathGrown row n ↔
    AboveGrown row n ∧ ∀ b, n.branch? = some b → b.isGrown = true := by
  constructor
  · intro h
    exact ⟨fun m b hm => h m b hm.to_reflTransGen, fun b => h n b Relation.ReflTransGen.refl⟩
  · rintro ⟨habove, hself⟩ m b hm hb
    rcases onPath_iff_eq_or_above.mp hm with rfl | hm
    · exact hself b hb
    · exact habove m b hm hb

/-- The path to a branch is being extended if the branch is the first one on it that has not grown
out. -/
theorem pathExtending_iff_of_branch (hd : DistinctExits root row) (hp : IsPreorder [root] row)
    (hn : n ∈ row) {b : Branch} (hb : n.branch? = some b) :
    PathExtending row n ↔ AboveGrown row n ∧ b.isGrown = false := by
  have hsome : n.branch?.isSome := by rw [hb]; rfl
  constructor
  · rintro ⟨m, c, hlast, hc, hnot, habove⟩
    obtain rfl := (lastBranch_iff_of_branch hd hp hn hsome).mp hlast
    rw [hb] at hc
    cases hc
    exact ⟨habove, hnot⟩
  · rintro ⟨habove, hnot⟩
    exact ⟨n, b, (lastBranch_iff_of_branch hd hp hn hsome).mpr rfl, hb, hnot, habove⟩

theorem pathExtending_iff_of_not_branch (hb : n.branch? = none) :
    PathExtending row n ↔ NearestExtending row n := by
  simp only [PathExtending, NearestExtending, lastBranch_iff_of_not_branch hb]

/-- A path that is being extended has not grown out. -/
theorem not_pathGrown_of_pathExtending (h : PathExtending row n) : ¬ PathGrown row n := by
  obtain ⟨m, b, hlast, hb, hnot, -⟩ := h
  intro hgrown
  rw [hgrown m b hlast.1 hb] at hnot
  cases hnot

end Row

/-! ## Flags of the joints -/

/-- The flags of all joints of a rooted row, at the entries and at the exits. -/
theorem Rooted.flags {origin : Vec} {root : JointId} {row : List Node} {k : Skeleton}
    {id : UInt32} (h : Rooted origin root row k id) (hflags : ∀ n ∈ row, FlagsInSync k n) :
    (∀ n ∈ row, ∀ e, k.get? n.entry = some e →
        (e.ready = true ↔ Row.AboveGrown row n) ∧
          (e.extending = true ↔ Row.NearestExtending row n)) ∧
      ∀ n ∈ row, ∀ x, k.get? n.exit = some x →
        (x.ready = true ↔ Row.PathGrown row n) ∧
          (x.extending = true ↔ Row.PathExtending row n) := by
  apply h.joints_induction
  case ground =>
    intro n _ hroot
    -- above a node at the root there is nothing, so nothing holds growth back
    have hnot : ∀ a, ¬ Row.Above row a n := fun a => h.distinct.not_above_of_entry_eq_root hroot
    constructor
    · exact iff_of_true rfl fun a b ha _ => absurd ha (hnot a)
    · refine iff_of_false (by simp [Joint.root]) ?_
      rintro ⟨a, b, ⟨ha, -⟩, -⟩
      exact hnot a ha
  case across =>
    rintro n hn e x he hx ⟨hready, hextending⟩
    obtain ⟨e', x', he', hx', hr, hex⟩ := hflags n hn
    rw [he] at he'
    rw [hx] at hx'
    cases he'
    cases hx'
    rw [hr, hex, Row.pathGrown_iff]
    -- a branch lets growth pass by its own state, any other node passes the flags on
    cases hb : n.branch? with
    | some b =>
      obtain ⟨hr', hex'⟩ := Node.carry_of_branch?_some hb e
      rw [hr', hex', Row.pathExtending_iff_of_branch h.distinct h.preorder hn hb]
      simp [hready]
    | none =>
      obtain ⟨-, hr', hex'⟩ := Node.carry_of_branch?_none hb e
      rw [hr', hex', Row.pathExtending_iff_of_not_branch hb]
      simpa using ⟨hready, hextending⟩
  case down =>
    intro m n x hparent hm
    -- the entry of a node is the exit of its parent
    rw [Row.aboveGrown_iff_of_parent h.distinct hparent,
      Row.nearestExtending_iff_of_parent h.distinct hparent]
    exact hm

/-- In every reachable plant the flags at the exit of a node are the condition on its ancestors:
`ready` holds exactly if every branch from the root to the node is grown, and `extending`
exactly if the nearest branch at or above the node is not grown and all above that one are; so
never both. -/
theorem Plant.Reachable.exit_flags_iff {origin : Vec} {p : Plant} (h : Reachable origin p)
    {n : Node} (hn : n ∈ p.nodes) : ∃ x, p.skeleton.get? n.exit = some x ∧
      (x.ready = true ↔ Row.PathGrown p.nodes n) ∧
      (x.extending = true ↔ Row.PathExtending p.nodes n) ∧
      ¬ (x.ready = true ∧ x.extending = true) := by
  obtain ⟨⟨root, hroot⟩, -, hflags⟩ := h.sound
  obtain ⟨x, hx⟩ := Skeleton.exists_get? (hroot.exit_inside hn)
  obtain ⟨hready, hextending⟩ := (hroot.flags hflags).2 n hn x hx
  refine ⟨x, hx, hready, hextending, ?_⟩
  rintro ⟨hr, he⟩
  exact Row.not_pathGrown_of_pathExtending (hextending.mp he) (hready.mp hr)

/-- At the exits of the sapling the flags are that condition. -/
theorem Plant.Reachable.exit_flags_iff_sapling : ∃ p t n x,
    sapling ⟨⟨#[0], 0⟩, #[]⟩ = .ok p t ∧ n ∈ p.nodes ∧ p.skeleton.get? n.exit = some x ∧
      (x.ready = true ↔ Row.PathGrown p.nodes n) ∧
      (x.extending = true ↔ Row.PathExtending p.nodes n) ∧
      ¬ (x.ready = true ∧ x.extending = true) := by
  obtain ⟨p, t, h⟩ := sapling_eq_ok
  have hp := reachable_of_sapling h
  obtain ⟨n, rest, hnodes⟩ := List.exists_cons_of_ne_nil hp.sound.ne_nil
  have hn : n ∈ p.nodes := by
    rw [hnodes]
    exact List.mem_cons_self
  obtain ⟨x, hx, hflags⟩ := hp.exit_flags_iff hn
  exact ⟨p, t, n, x, h, hn, hx, hflags⟩

end PlantGrowth
