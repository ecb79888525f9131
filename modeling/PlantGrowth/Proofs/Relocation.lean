import PlantGrowth.Proofs.Compaction
import PlantGrowth.Proofs.Frame
import PlantGrowth.Proofs.Simulation

/-!
# Computations on a skeleton that has lost joints

A skeleton may lose joints as long as no node uses them, if the handles of the others are renamed.
A `Relocation` has the new names, also of the handles that are given out later, which are smaller
by the number of joints lost. Everything that is done to nodes on the one skeleton can be done to
the renamed nodes on the other, with the same reports, draws and faults: for each computation of
growth and expansion this file says that the renamed one follows it (`Outcome.Comparison.Follows`),
from `joint_follows` and its like for single steps up to `growAll_follows` for a frame and
`replaceAll_follows` for a generation.
-/

set_option autoImplicit false

namespace PlantGrowth

open Outcome

/-- New names for the handles of a skeleton that has lost joints. -/
structure Relocation where
  name : JointId → JointId
  /-- Handles whose joints were kept or will be made. -/
  Live : JointId → Prop
  /-- Number of joints there were. -/
  size : Nat
  /-- Number of joints lost. -/
  freed : Nat
  injective : ∀ {i j}, Live i → Live j → name i = name j → i = j
  live_of_le : ∀ {j : JointId}, size ≤ j.index → Live j
  index_name : ∀ {j : JointId}, size ≤ j.index → (name j).index + freed = j.index

namespace Relocation

variable (M : Relocation)

/-- The handle may be used on a skeleton of that size. -/
structure Held (n : Nat) (j : JointId) : Prop where
  live : M.Live j
  inside : j.index < n

/-- A skeleton before and after. -/
structure Moved (k k' : Skeleton) : Prop where
  size_le : M.size ≤ k.size
  size_eq : k'.size + M.freed = k.size
  get?_eq : ∀ {j}, M.Live j → k'.get? (M.name j) = k.get? j

variable {M} {n m : Nat}

/-- A handle stays usable while the skeleton grows. -/
theorem Held.mono {j : JointId} (h : M.Held n j) (hnm : n ≤ m) : M.Held m j :=
  ⟨h.live, Nat.lt_of_lt_of_le h.inside hnm⟩

/-- New names tell usable handles apart as well as the old ones do. -/
theorem name_eq_iff {i j : JointId} (hi : M.Held n i) (hj : M.Held n j) :
    M.name i = M.name j ↔ i = j :=
  ⟨M.injective hi.live hj.live, fun h => congrArg M.name h⟩

namespace Moved

variable {k k' : Skeleton}

/-- The new name of a usable handle lies within the smaller skeleton. -/
theorem inside (h : M.Moved k k') {j : JointId} (hj : M.Held k.size j) :
    (M.name j).index < k'.size := by
  obtain ⟨x, hx⟩ := Skeleton.exists_get? hj.inside
  rw [← h.get?_eq hj.live] at hx
  exact Skeleton.index_lt_of_get? hx

/-- Joints written under the old and the new name of a handle keep the skeletons alike. -/
theorem put (h : M.Moved k k') {j : JointId} (hj : M.Held k.size j) (x : Joint) :
    M.Moved (k.put j x) (k'.put (M.name j) x) where
  size_le := by
    rw [Skeleton.size_put]
    exact h.size_le
  size_eq := by
    rw [Skeleton.size_put, Skeleton.size_put]
    exact h.size_eq
  get?_eq := by
    intro i hi
    by_cases hij : j = i
    · subst hij
      rw [Skeleton.get?_put_self hj.inside, Skeleton.get?_put_self (h.inside hj)]
    · have hname : M.name j ≠ M.name i := fun he => hij (M.injective hj.live hi he)
      rw [Skeleton.get?_put_of_ne hij, Skeleton.get?_put_of_ne hname]
      exact h.get?_eq hi

/-- The next handle is renamed to the next handle, as long as handles do not wrap. -/
theorem nextId (h : M.Moved k k') (hk : k.size < UInt32.size) :
    M.Held (k.size + 1) k.nextId ∧ k'.nextId = M.name k.nextId := by
  have hindex : k.nextId.index = k.size := Skeleton.index_nextId hk
  have hle : M.size ≤ k.nextId.index := by
    rw [hindex]
    exact h.size_le
  refine ⟨⟨M.live_of_le hle, by omega⟩, JointId.ext_index ?_⟩
  have hname := M.index_name hle
  have hsize := h.size_eq
  rw [Skeleton.index_nextId (by omega)]
  omega

/-- A joint added to both skeletons keeps them alike: the new one has the next handle on each. -/
theorem push (h : M.Moved k k') (hk : k.size < UInt32.size) (x : Joint) :
    M.Moved (k.push x) (k'.push x) where
  size_le := by
    rw [Skeleton.size_push]
    exact Nat.le_succ_of_le h.size_le
  size_eq := by
    have hsize := h.size_eq
    rw [Skeleton.size_push, Skeleton.size_push]
    omega
  get?_eq := by
    intro i hi
    obtain ⟨hnext, hname⟩ := h.nextId hk
    have hindex : k.nextId.index = k.size := Skeleton.index_nextId hk
    have hindex' : k'.nextId.index = k'.size :=
      Skeleton.index_nextId (by have := h.size_eq; omega)
    rw [Skeleton.get?_push, Skeleton.get?_push, h.get?_eq hi]
    -- only the next handle has the new joint, before as after
    have hiff : (M.name i).index = k'.size ↔ i.index = k.size := by
      rw [← hindex, ← hindex', hname]
      constructor
      · intro he
        rw [M.injective hi hnext.live (JointId.ext_index he)]
      · intro he
        rw [JointId.ext_index he]
    by_cases he : i.index = k.size
    · rw [if_pos he, if_pos (hiff.mpr he)]
    · rw [if_neg he, if_neg fun h => he (hiff.mp h)]

end Moved

end Relocation

/-! ## What is compared -/

/-- Number of joints on a site. -/
abbrev Site.joints (σ : Type) (s : Site σ) : Nat := s.skeleton.size

/-- Number of joints in a nursery. -/
abbrev Nursery.joints (σ : Type) (s : Nursery σ) : Nat := s.site.skeleton.size

namespace Relocation

variable (M : Relocation)

/-- Sites before and after the loss of joints. -/
def sites (σ : Type) : Comparison (Site σ) (Site σ) where
  measure := Site.joints σ
  bound := UInt32.size
  Related s t := M.Moved s.skeleton t.skeleton ∧ t.source = s.source

/-- Nurseries on a skeleton before and after, and otherwise equal. -/
structure Alongside {σ : Type} (s t : Nursery σ) : Prop where
  moved : M.Moved s.site.skeleton t.site.skeleton
  source_eq : t.site.source = s.site.source
  age_eq : t.age = s.age
  nextId_eq : t.nextId = s.nextId
  journal_eq : t.journal = s.journal

/-- Nurseries before and after the loss of joints. -/
def nurseries (σ : Type) : Comparison (Nursery σ) (Nursery σ) where
  measure := Nursery.joints σ
  bound := UInt32.size
  Related := M.Alongside

end Relocation

/-! ## Steps on a site -/

namespace OnSite

variable {σ α : Type} {M : Relocation} {n : Nat}

theorem raises_joint (j : JointId) : Raises (Site.joints σ) (joint j) := by
  intro s
  unfold joint
  split <;> exact Nat.le_refl _

/-- Writing a joint adds none and takes none away. -/
theorem raises_setJoint (j : JointId) (x : Joint) : Raises (Site.joints σ) (setJoint j x) := by
  intro s
  unfold setJoint
  split
  · exact Nat.le_of_eq (Skeleton.size_put ..).symm
  · exact Nat.le_refl _

/-- Adding a joint is the only step on a site that changes their number. -/
theorem raises_addJoint (x : Joint) : Raises (Site.joints σ) (addJoint x) := by
  intro s
  show s.skeleton.size ≤ (s.skeleton.push x).size
  rw [Skeleton.size_push]
  exact Nat.le_succ _

theorem raises_draw (f : σ → Except Fault (α × σ)) : Raises (Site.joints σ) (draw f) := by
  intro s
  unfold draw
  split <;> exact Nat.le_refl _

/-- A joint is read under its new name as under the old one. -/
theorem joint_follows {j : JointId} (h : M.Held n j) :
    (M.sites σ).Follows n (fun _ e e' => e' = e) (joint j) (joint (M.name j)) := by
  rintro s t hst hn -
  obtain ⟨x, hx⟩ := Skeleton.exists_get? (h.mono hn).inside
  have hx' : t.skeleton.get? (M.name j) = some x := by rw [hst.1.get?_eq h.live, hx]
  rw [joint_eq_ok.mpr ⟨hx, rfl⟩, joint_eq_ok.mpr ⟨hx', rfl⟩]
  exact .ok ⟨rfl, hst, Nat.le_refl _⟩

/-- A joint is written under its new name as under the old one. -/
theorem setJoint_follows {j : JointId} (h : M.Held n j) (x : Joint) :
    (M.sites σ).Follows n (fun _ _ _ => True) (setJoint j x) (setJoint (M.name j) x) := by
  rintro s t ⟨hmoved, hsource⟩ hn -
  have hheld : M.Held s.skeleton.size j := h.mono hn
  rw [(setJoint_eq_ok (u := ())).mpr ⟨hheld.inside, rfl⟩,
    (setJoint_eq_ok (u := ())).mpr ⟨hmoved.inside hheld, rfl⟩]
  exact .ok ⟨trivial, ⟨hmoved.put hheld x, hsource⟩, Nat.le_of_eq (Skeleton.size_put ..).symm⟩

/-- The handles given out on the two sites are the old and the new name of one joint. -/
theorem addJoint_follows (x : Joint) :
    (M.sites σ).Follows n (fun m j j' => M.Held m j ∧ j' = M.name j) (addJoint x)
      (addJoint x) := by
  rintro s t ⟨hmoved, hsource⟩ hn hbound
  have hsize : (s.skeleton.push x).size = s.skeleton.size + 1 := Skeleton.size_push ..
  have hlt : s.skeleton.size < UInt32.size := by
    have hle : (s.skeleton.push x).size ≤ UInt32.size := hbound
    omega
  obtain ⟨hheld, hname⟩ := hmoved.nextId hlt
  refine .ok ⟨⟨?_, hname⟩, ⟨hmoved.push hlt x, hsource⟩, ?_⟩
  · show M.Held (s.skeleton.push x).size _
    rw [hsize]
    exact hheld
  · show s.skeleton.size ≤ (s.skeleton.push x).size
    omega

/-- Samples of which one is an image of the other. -/
theorem draw_follows_image {β : Type} {f : σ → Except Fault (α × σ)}
    {g : σ → Except Fault (β × σ)} {φ : α → β} {P : α → Prop}
    (hg : ∀ source, g source = (fun r => (φ r.1, r.2)) <$> f source)
    (hP : ∀ source a source', f source = .ok (a, source') → P a) :
    (M.sites σ).Follows n (fun _ a b => b = φ a ∧ P a) (draw f) (draw g) := by
  rintro s t ⟨hmoved, hsource⟩ hn -
  unfold draw
  rw [hsource, hg]
  cases hf : f s.source with
  | ok a => exact .ok ⟨⟨rfl, hP _ _ _ hf⟩, ⟨hmoved, rfl⟩, Nat.le_refl _⟩
  | error e => exact .error ⟨hmoved, hsource⟩

/-- The random source is untouched by the loss of joints, so both sites draw the same. -/
theorem draw_follows (f : σ → Except Fault (α × σ)) :
    (M.sites σ).Follows n (fun _ a b => b = a) (draw f) (draw f) := by
  refine (draw_follows_image (φ := id) (P := fun _ => True) (fun source => ?_)
    fun _ _ _ _ => trivial).imp fun _ _ _ _ h => h.1
  exact (id_map (f source)).symm

end OnSite

namespace Relocation

/-- A node whose handles may be used, and the node with its handles renamed. -/
structure NodeMoved (M : Relocation) (n : Nat) (a b : Node) : Prop where
  eq : b = a.rename M.name
  entry : M.Held n a.entry
  exit : M.Held n a.exit

/-- Nodes that correspond at one size do so at any larger one. -/
theorem NodeMoved.mono {M : Relocation} {n m : Nat} {a b : Node} (h : M.NodeMoved n a b)
    (hnm : n ≤ m) : M.NodeMoved m a b :=
  ⟨h.eq, h.entry.mono hnm, h.exit.mono hnm⟩

end Relocation

namespace OnSite

variable {σ α : Type} {M : Relocation} {n : Nat}

theorem raises_refresh (a : Node) : Raises (Site.joints σ) (refresh a) :=
  .bind (raises_joint a.entry) fun _ => raises_setJoint a.exit _

theorem raises_relink (a : Node) (target : JointId) : Raises (Site.joints σ) (relink a target) := by
  unfold relink
  split
  · exact .pure a
  · exact .bind (raises_joint a.exit) fun _ => .bind (raises_setJoint target _) fun _ => .pure _

theorem raises_attach {id : UInt32} {letter : Char} {entry : JointId} {rotation : Scalar}
    {depth : UInt32} {hasRule : Bool} {kind : Kind} : Raises (Site.joints σ)
      (attach id letter entry rotation depth hasRule kind) :=
  .bind (raises_joint entry) fun _ => .bind (raises_addJoint _) fun _ => .pure _

/-- A node that passes its joint on does so under the new names. -/
theorem refresh_follows {a b : Node} (h : M.NodeMoved n a b) :
    (M.sites σ).Follows n (fun _ _ _ => True) (refresh a) (refresh b) := by
  rw [h.eq]
  refine .bind (joint_follows h.entry) (fun _ => raises_setJoint a.exit _) ?_
  rintro m e _ hm rfl
  exact setJoint_follows (h.exit.mono hm) _

/-- Taking over an exit commutes with the renaming. Whether there is anything to do depends on two
handles being equal, which new names preserve. -/
theorem relink_follows {a b : Node} (h : M.NodeMoved n a b) {target : JointId}
    (htarget : M.Held n target) :
    (M.sites σ).Follows n M.NodeMoved (relink a target) (relink b (M.name target)) := by
  obtain ⟨rfl, hentry, hexit⟩ := h
  have hiff : M.name target = (a.rename M.name).exit ↔ target = a.exit :=
    Relocation.name_eq_iff htarget hexit
  unfold relink
  by_cases he : target = a.exit
  · rw [if_pos he, if_pos (hiff.mpr he)]
    exact .pure fun m hm => ⟨rfl, hentry.mono hm, hexit.mono hm⟩
  · rw [if_neg he, if_neg fun h => he (hiff.mp h)]
    refine .bind (joint_follows hexit)
      (fun _ => .bind (raises_setJoint target _) fun _ => .pure _) ?_
    rintro m e _ hm rfl
    refine .bind (setJoint_follows (htarget.mono hm) _) (fun _ => .pure _) ?_
    rintro m' _ _ hm' -
    have hle : n ≤ m' := Nat.le_trans hm hm'
    exact .pure fun m'' hm'' => ⟨rfl, hentry.mono (Nat.le_trans hle hm''),
      htarget.mono (Nat.le_trans hle hm'')⟩

/-- Nodes attached to corresponding joints correspond. -/
theorem attach_follows {entry : JointId} (h : M.Held n entry) {id : UInt32} {letter : Char}
    {rotation : Scalar} {depth : UInt32} {hasRule : Bool} {kind : Kind} :
    (M.sites σ).Follows n M.NodeMoved (attach id letter entry rotation depth hasRule kind)
      (attach id letter (M.name entry) rotation depth hasRule kind) := by
  refine .bind (joint_follows h) (fun _ => .bind (raises_addJoint _) fun _ => .pure _) ?_
  rintro m e _ hm rfl
  refine .bind (addJoint_follows _) (fun _ => .pure _) ?_
  rintro m' exit _ hm' ⟨hexit, rfl⟩
  exact .pure fun m'' hm'' => ⟨rfl, h.mono (Nat.le_trans (Nat.le_trans hm hm') hm''),
    hexit.mono hm''⟩

end OnSite

/-! ## Frames -/

/-- What a node does in a frame, under another name. -/
def Grown.rename (ρ : JointId → JointId) (g : Grown) : Grown := { g with node := g.node.rename ρ }

namespace Node

variable {σ : Type} [RandomSource σ]

/-- What a branch does in a frame is told from the joint at its entry, not from the handles. -/
theorem growBranch_rename (ρ : JointId → JointId) (m : Moment) (a : Node) (before : Branch)
    (e : Joint) (source : σ) :
    (a.rename ρ).growBranch m before e source =
      (fun r => (r.1.rename ρ, r.2)) <$> a.growBranch m before e source := by
  unfold growBranch
  cases before.advance m e source with
  | error f => rfl
  | ok r =>
    obtain ⟨b, source⟩ := r
    cases e.ready with
    | false => rfl
    | true =>
      -- the name of the node plays no part in its sway
      show (Branch.sway m a.depth e (({ a with kind := .branch b } : Node).carry e)
          b.currentLength >>= _) = (fun r : Grown × σ => (r.1.rename ρ, r.2)) <$>
        (Branch.sway m a.depth e (({ a with kind := .branch b } : Node).carry e)
          b.currentLength >>= _)
      cases Branch.sway m a.depth e (({ a with kind := .branch b } : Node).carry e)
        b.currentLength with
      | error f => rfl
      | ok exit => rfl

/-- What a node does in a frame does not depend on the names of its handles. -/
theorem grow_rename (ρ : JointId → JointId) (m : Moment) (a : Node) (e : Joint) (source : σ) :
    (a.rename ρ).grow m e source = (fun r => (r.1.rename ρ, r.2)) <$> a.grow m e source := by
  have hkind : (a.rename ρ).kind = a.kind := rfl
  unfold grow
  rw [hkind]
  cases a.kind with
  | placeholder => rfl
  | bud colour => rfl
  | branch b => exact growBranch_rename ρ m a b e source

end Node

namespace OnSite

variable {σ : Type} [RandomSource σ] {M : Relocation} {n : Nat}

theorem raises_growNode (m : Moment) (a : Node) : Raises (Site.joints σ) (growNode m a) :=
  .bind (raises_joint a.entry) fun _ => .bind (raises_draw _) fun _ =>
    .bind (raises_setJoint a.exit _) fun _ => .pure _

/-- In a frame, corresponding nodes change alike and leave the same mark. -/
theorem growNode_follows (m : Moment) {a b : Node} (h : M.NodeMoved n a b) :
    (M.sites σ).Follows n (fun n x y => M.NodeMoved n x.1 y.1 ∧ y.2 = x.2) (growNode m a)
      (growNode m b) := by
  obtain ⟨rfl, hentry, hexit⟩ := h
  refine .bind (joint_follows hentry) (fun _ => .bind (raises_draw _) fun _ =>
    .bind (raises_setJoint a.exit _) fun _ => .pure _) ?_
  rintro n₁ _ e h₁ rfl
  refine .bind (Q := fun _ g g' => g' = g.rename M.name ∧ g.node.entry = a.entry ∧
    g.node.exit = a.exit) ?_ (fun _ => .bind (raises_setJoint a.exit _) fun _ => .pure _) ?_
  · refine draw_follows_image (fun source => Node.grow_rename M.name m a e source) ?_
    exact fun _ _ _ hgrow => (Node.grows_of_grow hgrow).handles_eq
  rintro n₂ g _ h₂ ⟨rfl, hgentry, hgexit⟩
  have hle : n ≤ n₂ := Nat.le_trans h₁ h₂
  refine .bind (setJoint_follows (hexit.mono hle) _) (fun _ => .pure _) ?_
  rintro n₃ _ _ h₃ -
  refine .pure fun n₄ h₄ => ⟨⟨rfl, ?_, ?_⟩, rfl⟩
  · rw [hgentry]
    exact hentry.mono (by omega)
  · rw [hgexit]
    exact hexit.mono (by omega)

theorem raises_growAll (m : Moment) (row : List Node) : Raises (Site.joints σ) (growAll m row) :=
  .bind (.mapM (raises_growNode m) row) fun _ => .pure _

/-- A frame of the renamed row follows a frame of the row, with the same marks. -/
theorem growAll_follows (m : Moment) {row row' : List Node}
    (h : List.Forall₂ (M.NodeMoved n) row row') :
    (M.sites σ).Follows n (fun n x y => List.Forall₂ (M.NodeMoved n) x.1 y.1 ∧ y.2 = x.2)
      (growAll m row) (growAll m row') := by
  refine .bind (.mapM (raises_growNode m) (fun hm h => h.mono hm) (fun hm h => ⟨h.1.mono hm, h.2⟩)
    (fun _ _ _ h => growNode_follows m h) h) (fun _ => .pure _) ?_
  intro n₁ results results' h₁ hresults
  refine .pure fun n₂ h₂ => ⟨?_, ?_⟩
  · rw [List.forall₂_map_left_iff, List.forall₂_map_right_iff]
    exact hresults.imp fun _ _ hr => hr.1.mono h₂
  · have hmarks := congrArg (List.filterMap id) (map_eq_of_forall₂ (f := Prod.snd)
      (g := Prod.snd) (hresults.imp fun _ _ hr => hr.2))
    rwa [List.filterMap_map, List.filterMap_map] at hmarks

end OnSite

/-! ## The turtle's stack -/

/-- The frame at the joint of another name. -/
def Frame.rename (ρ : JointId → JointId) (f : Frame) : Frame := { f with joint := ρ f.joint }

namespace Stack

/-- The stack with the joints of all frames renamed. -/
def rename (ρ : JointId → JointId) (s : Stack) : Stack :=
  { s with base := s.base.rename ρ, nested := s.nested.map (Frame.rename ρ) }

variable (ρ : JointId → JointId) (s : Stack)

/-- The top frame of a renamed stack is the renamed top frame. -/
theorem top_rename : (s.rename ρ).top = s.top.rename ρ := by
  unfold top rename
  cases s.nested <;> rfl

/-- Names do not matter to whether a bracket is open. -/
theorem isOuter_rename : (s.rename ρ).isOuter = s.isOuter := by
  unfold isOuter rename
  cases s.nested <;> rfl

/-- Names do not matter to how many brackets are open. -/
theorem unclosed_rename : (s.rename ρ).unclosed = s.unclosed := List.length_map _

theorem setTop_rename (f : Frame) : (s.rename ρ).setTop (f.rename ρ) = (s.setTop f).rename ρ := by
  unfold setTop rename
  cases s.nested <;> rfl

theorem turn_rename (a : Scalar) : (s.rename ρ).turn a = (s.turn a).rename ρ := by
  rw [turn, top_rename, turn, ← setTop_rename]
  rfl

/-- Saving commutes with a renaming, and fails for the same counter. -/
theorem save_rename : (s.rename ρ).save = rename ρ <$> s.save := by
  unfold save
  rw [top_rename]
  show (addWord s.top.depth 1 >>= _) = _ <$> (addWord s.top.depth 1 >>= _)
  cases addWord s.top.depth 1 with
  | error e => rfl
  | ok depth =>
    show (addWord s.saves 1 >>= _) = _ <$> (addWord s.saves 1 >>= _)
    cases addWord s.saves 1 <;> rfl

/-- Restoring commutes with a renaming, and meets a stray bracket at the same moments. -/
theorem restore_rename :
    (s.rename ρ).restore = (fun r => (r.1, r.2.rename ρ)) <$> s.restore := by
  obtain ⟨base, nested, saves, restores, strays⟩ := s
  cases nested with
  | nil =>
    show (addWord strays 1 >>= _) = _ <$> (addWord strays 1 >>= _)
    cases addWord strays 1 <;> rfl
  | cons f below =>
    show (addWord restores 1 >>= _) = _ <$> (addWord restores 1 >>= _)
    cases addWord restores 1 <;> rfl

end Stack

namespace Relocation

/-- A stack on whose joints nodes may be grown, and the stack with its joints renamed. -/
structure StackMoved (M : Relocation) (n : Nat) (s t : Stack) : Prop where
  eq : t = s.rename M.name
  held : ∀ f ∈ s.frames, M.Held n f.joint

namespace StackMoved

variable {M : Relocation} {n m : Nat} {s t : Stack}

/-- Stacks that correspond at one size do so at any larger one. -/
theorem mono (h : M.StackMoved n s t) (hnm : n ≤ m) : M.StackMoved m s t :=
  ⟨h.eq, fun f hf => (h.held f hf).mono hnm⟩

/-- A stack of one frame at a usable joint. -/
theorem ofFrame {f : Frame} (hf : M.Held n f.joint) :
    M.StackMoved n (.ofFrame f) (.ofFrame (f.rename M.name)) :=
  ⟨rfl, fun g hg => by rwa [List.mem_singleton.mp hg]⟩

/-- The turtle stands on a joint that may be used. -/
theorem held_top (h : M.StackMoved n s t) : M.Held n s.top.joint :=
  h.held s.top (by rw [s.frames_eq_cons]; exact List.mem_cons_self)

/-- The turtle steps onto corresponding joints. -/
theorem setTop (h : M.StackMoved n s t) {f : Frame} (hf : M.Held n f.joint) :
    M.StackMoved n (s.setTop f) (t.setTop (f.rename M.name)) := by
  refine ⟨by rw [h.eq, Stack.setTop_rename], ?_⟩
  rw [Stack.frames_setTop, List.forall_mem_cons]
  refine ⟨hf, fun g hg => h.held g ?_⟩
  rw [s.frames_eq_cons]
  exact List.mem_cons_of_mem s.top hg

theorem turn (h : M.StackMoved n s t) (a : Scalar) : M.StackMoved n (s.turn a) (t.turn a) := by
  have hturned := h.setTop (f := { s.top with rotation := s.top.rotation + a }) h.held_top
  have heq : t.turn a = (s.turn a).rename M.name := by rw [h.eq, Stack.turn_rename]
  exact ⟨heq, hturned.held⟩

/-- Saving leaves only usable joints on the stack. -/
theorem save (h : M.StackMoved n s t) {s' : Stack} (hs : s.save = .ok s') :
    ∀ f ∈ s'.frames, M.Held n f.joint := by
  obtain ⟨depth, -, hframes⟩ := Stack.save_eq_ok hs
  rw [hframes, List.forall_mem_cons]
  exact ⟨h.held_top, h.held⟩

/-- Restoring leaves only usable joints on the stack. -/
theorem restore (h : M.StackMoved n s t) {matched : Bool} {s' : Stack}
    (hs : s.restore = .ok (matched, s')) : ∀ f ∈ s'.frames, M.Held n f.joint := by
  have hframes := Stack.restore_eq_ok hs
  split at hframes
  · intro f hf
    exact h.held f (by rw [hframes]; exact List.mem_cons_of_mem _ hf)
  · rw [hframes.2]
    exact h.held

end StackMoved

end Relocation

/-! ## Steps in a nursery -/

namespace Build

variable {σ α : Type} {M : Relocation} {n : Nat}

theorem raises_onSite {x : OnSite σ α} (h : Raises (Site.joints σ) x) :
    Raises (Nursery.joints σ) (onSite x) := by
  intro s
  have hs := h s.site
  unfold onSite
  cases hx : x s.site with
  | ok a site =>
    rw [hx] at hs
    exact hs
  | error e site =>
    rw [hx] at hs
    exact hs

theorem raises_check (x : Except Fault α) : Raises (Nursery.joints σ) (check x) := by
  intro s
  cases x <;> exact Nat.le_refl _

theorem raises_note (e : Event) : Raises (Nursery.joints σ) (note e) :=
  fun _ => Nat.le_refl _

theorem raises_freshId : Raises (Nursery.joints σ) freshId := by
  intro s
  unfold freshId
  split <;> exact Nat.le_refl _

theorem raises_raiseAge (depth : UInt32) : Raises (Nursery.joints σ) (raiseAge depth) :=
  fun _ => Nat.le_refl _

theorem raises_get : Raises (Nursery.joints σ) (get : Build σ (Nursery σ)) :=
  fun _ => Nat.le_refl _

/-- What holds of steps on sites holds of the same steps in nurseries. -/
theorem onSite_follows {β : Type} {R : Nat → α → β → Prop} {x : OnSite σ α} {y : OnSite σ β}
    (h : (M.sites σ).Follows n R x y) : (M.nurseries σ).Follows n R (onSite x) (onSite y) := by
  intro s t hst hn hbound
  have hbound' : (final (x s.site)).skeleton.size ≤ UInt32.size := by
    have hfinal : (final (onSite x s)).site = final (x s.site) := by
      unfold onSite
      cases x s.site <;> rfl
    rw [← hfinal]
    exact hbound
  have halike := h s.site t.site ⟨hst.moved, hst.source_eq⟩ hn hbound'
  unfold onSite
  generalize x s.site = o at halike ⊢
  generalize y t.site = o' at halike ⊢
  cases halike with
  | ok hq =>
    obtain ⟨hr, ⟨hmoved, hsource⟩, hle⟩ := hq
    exact .ok ⟨hr, ⟨hmoved, hsource, hst.age_eq, hst.nextId_eq, hst.journal_eq⟩, hle⟩
  | error he => exact .error ⟨he.1, he.2, hst.age_eq, hst.nextId_eq, hst.journal_eq⟩

/-- Checks of which one gives an image of what the other gives. -/
theorem check_follows_image {β : Type} {x : Except Fault α} {y : Except Fault β} {φ : α → β}
    {P : α → Prop} (hy : y = φ <$> x) (hP : ∀ a, x = .ok a → P a) :
    (M.nurseries σ).Follows n (fun _ a b => b = φ a ∧ P a) (check x) (check y) := by
  rintro s t hst hn -
  rw [hy]
  cases x with
  | ok a => exact .ok ⟨⟨rfl, hP a rfl⟩, hst, Nat.le_refl _⟩
  | error e => exact .error hst

theorem check_follows (x : Except Fault α) :
    (M.nurseries σ).Follows n (fun _ a b => b = a) (check x) (check x) := by
  rintro s t hst hn -
  cases x with
  | ok a => exact .ok ⟨rfl, hst, Nat.le_refl _⟩
  | error e => exact .error hst

theorem note_follows (e : Event) :
    (M.nurseries σ).Follows n (fun _ _ _ => True) (note e) (note e) := by
  rintro s t hst hn -
  refine .ok ⟨trivial, ⟨hst.moved, hst.source_eq, hst.age_eq, hst.nextId_eq, ?_⟩, Nat.le_refl _⟩
  exact congrArg (·.push e) hst.journal_eq

/-- Identities do not depend on the skeleton, so both nurseries give out the same. -/
theorem freshId_follows :
    (M.nurseries σ).Follows n (fun _ a b => b = a) freshId freshId := by
  rintro s t hst hn -
  unfold freshId
  rw [hst.nextId_eq]
  cases addWord s.nextId 1 with
  | ok next =>
    exact .ok ⟨rfl, ⟨hst.moved, hst.source_eq, hst.age_eq, rfl, hst.journal_eq⟩, Nat.le_refl _⟩
  | error e => exact .error hst

theorem raiseAge_follows (depth : UInt32) :
    (M.nurseries σ).Follows n (fun _ _ _ => True) (raiseAge depth) (raiseAge depth) := by
  rintro s t hst hn -
  refine .ok ⟨trivial, ⟨hst.moved, hst.source_eq, ?_, hst.nextId_eq, hst.journal_eq⟩,
    Nat.le_refl _⟩
  exact congrArg (max · depth) hst.age_eq

/-- Looking at a nursery shows one alongside the other, at the size that it has. -/
theorem get_follows : (M.nurseries σ).Follows n
    (fun m a b => M.Alongside a b ∧ a.site.skeleton.size = m)
    (get : Build σ (Nursery σ)) (get : Build σ (Nursery σ)) :=
  fun _ _ hst _ _ => .ok ⟨⟨hst, rfl⟩, hst, Nat.le_refl _⟩

end Build

/-! ## Texts -/

namespace Turtle

variable {σ : Type} [RandomSource σ] {M : Relocation} {n : Nat} {params : GrowthParams}

theorem raises_growNode (letter : Letter) (stack : Stack) :
    Raises (Nursery.joints σ) (growNode params letter stack) :=
  .bind Build.raises_freshId fun _ => .bind Build.raises_get fun _ =>
    .bind (Build.raises_onSite (OnSite.raises_draw _)) fun _ =>
      .bind (Build.raises_onSite OnSite.raises_attach) fun _ => .pure _

/-- The turtle grows corresponding nodes and steps onto their exits. -/
theorem growNode_follows (letter : Letter) {s t : Stack} (h : M.StackMoved n s t) :
    (M.nurseries σ).Follows n (fun n x y => M.NodeMoved n x.1 y.1 ∧ M.StackMoved n x.2 y.2)
      (growNode params letter s) (growNode params letter t) := by
  have htop : t.top = s.top.rename M.name := by rw [h.eq, Stack.top_rename]
  unfold growNode
  rw [htop]
  refine .bind Build.freshId_follows (fun _ => .bind Build.raises_get fun _ =>
    .bind (Build.raises_onSite (OnSite.raises_draw _)) fun _ =>
      .bind (Build.raises_onSite OnSite.raises_attach) fun _ => .pure _) ?_
  rintro n₁ id _ h₁ rfl
  refine .bind Build.get_follows (fun _ =>
    .bind (Build.raises_onSite (OnSite.raises_draw _)) fun _ =>
      .bind (Build.raises_onSite OnSite.raises_attach) fun _ => .pure _) ?_
  rintro n₂ r r' h₂ ⟨hr, -⟩
  rw [hr.age_eq]
  refine .bind (Build.onSite_follows (OnSite.draw_follows _)) (fun _ =>
      .bind (Build.raises_onSite OnSite.raises_attach) fun _ => .pure _) ?_
  rintro n₃ ⟨rotation, kind⟩ _ h₃ rfl
  have hheld : M.Held n₃ s.top.joint := h.held_top.mono (by omega)
  refine .bind (Build.onSite_follows (OnSite.attach_follows hheld)) (fun _ => .pure _) ?_
  intro n₄ a b h₄ hab
  have hstack : M.StackMoved n₄ s t := h.mono (by omega)
  refine .pure fun n₅ h₅ => ⟨hab.mono h₅, ?_⟩
  obtain ⟨rfl, -, hexit⟩ := hab
  exact (hstack.setTop (f := ⟨a.exit, 0, a.depth⟩) hexit).mono h₅

theorem raises_read (letter : Letter) (stack : Stack) :
    Raises (Nursery.joints σ) (read params letter stack) := by
  have grows : Raises (Nursery.joints σ)
      (growNode params letter stack >>= fun r => pure (some r.1, r.2)) :=
    .bind (raises_growNode letter stack) fun _ => .pure _
  unfold read
  cases letter.action with
  | turnLeft => exact .pure _
  | turnRight => exact .pure _
  | save =>
    exact .bind (Build.raises_check _) fun _ => .bind (Build.raises_raiseAge _) fun _ => .pure _
  | restore =>
    refine .bind (Build.raises_check _) ?_
    rintro ⟨matched, stack⟩
    cases matched with
    | false => exact .bind (Build.raises_note _) fun _ => .pure _
    | true => exact .pure _
  | bud => exact grows
  | branch => exact grows
  | placeholder => exact grows

/-- One letter: corresponding nodes or none at all, and corresponding stacks. -/
theorem read_follows (letter : Letter) {s t : Stack} (h : M.StackMoved n s t) :
    (M.nurseries σ).Follows n
      (fun n x y => Option.Rel (M.NodeMoved n) x.1 y.1 ∧ M.StackMoved n x.2 y.2)
      (read params letter s) (read params letter t) := by
  have grows : (M.nurseries σ).Follows n
      (fun n x y => Option.Rel (M.NodeMoved n) x.1 y.1 ∧ M.StackMoved n x.2 y.2)
      (growNode params letter s >>= fun r => pure (some r.1, r.2))
      (growNode params letter t >>= fun r => pure (some r.1, r.2)) := by
    refine .bind (growNode_follows letter h) (fun _ => .pure _) ?_
    rintro n₁ ⟨a, s'⟩ ⟨b, t'⟩ h₁ ⟨hab, hst⟩
    exact .pure fun n₂ h₂ => ⟨.some (hab.mono h₂), hst.mono h₂⟩
  -- a turn changes the rotation of the top frame, and a bracket moves whole frames
  unfold read
  cases letter.action with
  | turnLeft => exact .pure fun n₁ h₁ => ⟨.none, (h.turn _).mono h₁⟩
  | turnRight => exact .pure fun n₁ h₁ => ⟨.none, (h.turn _).mono h₁⟩
  | save =>
    refine .bind (Build.check_follows_image (by rw [h.eq, Stack.save_rename]) fun s' => h.save)
      (fun _ => .bind (Build.raises_raiseAge _) fun _ => .pure _) ?_
    rintro n₁ s' _ h₁ ⟨rfl, hheld⟩
    have hdepth : (s'.rename M.name).top.depth = s'.top.depth := by rw [Stack.top_rename]; rfl
    rw [hdepth]
    refine .bind (Build.raiseAge_follows _) (fun _ => .pure _) ?_
    rintro n₂ _ _ h₂ -
    exact .pure fun n₃ h₃ => ⟨.none, rfl, fun f hf => (hheld f hf).mono (by omega)⟩
  | restore =>
    refine .bind (Build.check_follows_image (P := fun r => ∀ f ∈ r.2.frames, M.Held n f.joint)
      (by rw [h.eq, Stack.restore_rename]) fun r => h.restore) ?_ ?_
    · rintro ⟨matched, s'⟩
      cases matched with
      | false => exact .bind (Build.raises_note _) fun _ => .pure _
      | true => exact .pure _
    rintro n₁ ⟨matched, s'⟩ _ h₁ ⟨rfl, hheld⟩
    cases matched with
    | false =>
      refine .bind (Build.note_follows _) (fun _ => .pure _) ?_
      rintro n₂ _ _ h₂ -
      exact .pure fun n₃ h₃ => ⟨.none, rfl, fun f hf => (hheld f hf).mono (by omega)⟩
    | true => exact .pure fun n₂ h₂ => ⟨.none, rfl, fun f hf => (hheld f hf).mono (by omega)⟩
  | bud => exact grows
  | branch => exact grows
  | placeholder => exact grows

theorem raises_readText (text : List Letter) (stack : Stack) :
    Raises (Nursery.joints σ) (readText params text stack) := by
  induction text generalizing stack with
  | nil => exact .pure _
  | cons letter text ih =>
    refine .bind (raises_read letter stack) ?_
    rintro ⟨node?, stack⟩
    refine .bind (ih stack) ?_
    rintro ⟨made, stack⟩
    cases node? <;> exact .pure _

end Turtle

namespace Relocation

/-- A node that was made, and the node with its handles renamed. -/
structure MadeMoved (M : Relocation) (n : Nat) (a b : Turtle.Made) : Prop where
  node : M.NodeMoved n a.node b.node
  outer_eq : b.outer = a.outer

/-- What was made stays in correspondence while the skeletons grow. -/
theorem MadeMoved.mono {M : Relocation} {n m : Nat} {a b : Turtle.Made} (h : M.MadeMoved n a b)
    (hnm : n ≤ m) : M.MadeMoved m a b :=
  ⟨h.node.mono hnm, h.outer_eq⟩

end Relocation

namespace Turtle

variable {σ : Type} [RandomSource σ] {M : Relocation} {n : Nat} {params : GrowthParams}

/-- A whole text: the nodes correspond one by one, and so do the stacks at its end. -/
theorem readText_follows (text : List Letter) {s t : Stack} (h : M.StackMoved n s t) :
    (M.nurseries σ).Follows n
      (fun n x y => List.Forall₂ (M.MadeMoved n) x.1 y.1 ∧ M.StackMoved n x.2 y.2)
      (readText params text s) (readText params text t) := by
  induction text generalizing n s t with
  | nil => exact .pure fun n₁ h₁ => ⟨.nil, h.mono h₁⟩
  | cons letter text ih =>
    refine .bind (read_follows letter h) ?_ ?_
    · rintro ⟨node?, stack⟩
      refine .bind (raises_readText text stack) ?_
      rintro ⟨made, stack⟩
      cases node? <;> exact .pure _
    rintro n₁ ⟨node?, s₁⟩ ⟨node'?, t₁⟩ h₁ ⟨hnode, hstack⟩
    refine .bind (ih hstack) ?_ ?_
    · rintro ⟨made, stack⟩
      cases node? <;> exact .pure _
    rintro n₂ ⟨made, s₂⟩ ⟨made', t₂⟩ h₂ ⟨hmade, hstack'⟩
    cases hnode with
    | none => exact .pure fun n₃ h₃ => ⟨hmade.imp fun _ _ hm => hm.mono h₃, hstack'.mono h₃⟩
    | @some a b hab =>
      refine .pure fun n₃ h₃ => ⟨.cons ⟨hab.mono (by omega), ?_⟩
        (hmade.imp fun _ _ hm => hm.mono h₃), hstack'.mono h₃⟩
      obtain ⟨rfl, -⟩ := hstack
      exact Stack.isOuter_rename M.name s₁

end Turtle

/-! ## Generations -/

namespace Relocation

/-- What takes the place of a node, and the same with its handles renamed. -/
structure PartMoved (M : Relocation) (n : Nat) (a b : Replacement) : Prop where
  nodes : List.Forall₂ (M.NodeMoved n) a.nodes b.nodes
  tally_eq : b.tally = a.tally

/-- Replacements that correspond at one size do so at any larger one. -/
theorem PartMoved.mono {M : Relocation} {n m : Nat} {a b : Replacement} (h : M.PartMoved n a b)
    (hnm : n ≤ m) : M.PartMoved m a b :=
  ⟨h.nodes.imp fun _ _ hab => hab.mono hnm, h.tally_eq⟩

end Relocation

namespace Expansion

variable {σ : Type} {M : Relocation} {n : Nat} {grammar : Grammar} {params : GrowthParams}

theorem raises_relinkLast (target : JointId) (nodes : List Node) :
    Raises (Site.joints σ) (relinkLast target nodes) := by
  induction nodes with
  | nil => exact .pure _
  | cons a nodes ih =>
    cases nodes with
    | nil => exact .bind (OnSite.raises_relink a target) fun _ => .pure _
    | cons a' nodes => exact .bind ih fun _ => .pure _

/-- Only the last node of a row takes over the exit, under the old names as under the new. -/
theorem relinkLast_follows {target : JointId} (htarget : M.Held n target) {nodes nodes' : List Node}
    (h : List.Forall₂ (M.NodeMoved n) nodes nodes') :
    (M.sites σ).Follows n (fun n => List.Forall₂ (M.NodeMoved n)) (relinkLast target nodes)
      (relinkLast (M.name target) nodes') := by
  induction h with
  | nil => exact .pure fun _ _ => .nil
  | @cons a b nodes nodes' hab hrest ih =>
    cases hrest with
    | nil =>
      refine .bind (OnSite.relink_follows hab htarget) (fun _ => .pure _) ?_
      exact fun n₁ _ _ _ hab' => .pure fun n₂ h₂ => .cons (hab'.mono h₂) .nil
    | cons _ _ =>
      refine .bind ih (fun _ => .pure _) ?_
      exact fun n₁ _ _ h₁ hnodes => .pure fun n₂ h₂ =>
        .cons (hab.mono (by omega)) (hnodes.imp fun _ _ hm => hm.mono h₂)

theorem raises_bridge (frame : Frame) : Raises (Nursery.joints σ) (bridge grammar frame) :=
  .bind Build.raises_freshId fun _ => Build.raises_onSite OnSite.raises_attach

/-- Bridges at corresponding frames correspond. -/
theorem bridge_follows {frame : Frame} (h : M.Held n frame.joint) :
    (M.nurseries σ).Follows n M.NodeMoved (bridge grammar frame)
      (bridge grammar (frame.rename M.name)) := by
  refine .bind Build.freshId_follows (fun _ => Build.raises_onSite OnSite.raises_attach) ?_
  rintro n₁ id _ h₁ rfl
  exact Build.onSite_follows (OnSite.attach_follows (h.mono h₁))

/-- A bridge is needed on both sides or on neither, for no name plays a part in that. -/
theorem needsBridge_eq {made made' : List Turtle.Made} {s t : Stack}
    (h : List.Forall₂ (M.MadeMoved n) made made') (hst : M.StackMoved n s t) :
    needsBridge made' t = needsBridge made s := by
  refine needsBridge_congr (map_eq_of_forall₂ (h.imp fun _ _ hm => hm.outer_eq)) ?_
  rw [hst.eq, Stack.top_rename]
  rfl

theorem raises_noteUnclosed (old : Node) (stack : Stack) :
    Raises (Nursery.joints σ) (noteUnclosed old stack) := by
  unfold noteUnclosed
  split
  · exact Build.raises_note _
  · exact .pure _

theorem raises_bridges (made : List Turtle.Made) (stack : Stack) :
    Raises (Nursery.joints σ) (bridges grammar made stack) := by
  unfold bridges
  split
  · exact .map (raises_bridge _)
  · exact .pure _

/-- Both journals get the same note about open brackets. -/
theorem noteUnclosed_follows (a : Node) {s t : Stack} (h : M.StackMoved n s t) :
    (M.nurseries σ).Follows n (fun _ _ _ => True) (noteUnclosed a s)
      (noteUnclosed (a.rename M.name) t) := by
  have hunclosed : t.unclosed = s.unclosed := by rw [h.eq, Stack.unclosed_rename]
  unfold noteUnclosed
  rw [hunclosed]
  split
  · exact Build.note_follows _
  · exact .pure fun _ _ => trivial

/-- As many bridges are built on the one side as on the other. -/
theorem bridges_follows {made made' : List Turtle.Made} {s t : Stack}
    (hmade : List.Forall₂ (M.MadeMoved n) made made') (h : M.StackMoved n s t) :
    (M.nurseries σ).Follows n (fun n => List.Forall₂ (M.NodeMoved n)) (bridges grammar made s)
      (bridges grammar made' t) := by
  have htop : t.top = s.top.rename M.name := by rw [h.eq, Stack.top_rename]
  unfold bridges
  rw [needsBridge_eq hmade h, htop]
  split
  · exact .map (bridge_follows h.held_top) (fun hm hab => hab.imp fun _ _ h => h.mono hm)
      fun _ _ _ _ hab => .cons hab .nil
  · exact .pure fun _ _ => .nil

variable [RandomSource σ]

theorem raises_expand (old : Node) (rule : Rule (List Letter)) :
    Raises (Nursery.joints σ) (expand grammar params old rule) := by
  rw [expand_eq]
  exact .bind (Build.raises_onSite (OnSite.raises_draw _)) fun text =>
    .bind (Turtle.raises_readText _ _) fun r => .bind (raises_noteUnclosed _ _) fun _ =>
      .bind (raises_bridges _ _) fun _ =>
        .bind (Build.raises_onSite (raises_relinkLast _ _)) fun _ => .pure _

/-- Expanding a node by the renamed texts follows: the same text is drawn, read on both sides, and
linked to the exit. -/
theorem expand_follows {a b : Node} (h : M.NodeMoved n a b) (rule : Rule (List Letter)) :
    (M.nurseries σ).Follows n M.PartMoved (expand grammar params a rule)
      (expand grammar params b rule) := by
  obtain ⟨rfl, hentry, hexit⟩ := h
  rw [expand_eq, expand_eq]
  refine .bind (Build.onSite_follows (OnSite.draw_follows _)) (fun _ =>
    .bind (Turtle.raises_readText _ _) fun _ => .bind (raises_noteUnclosed _ _) fun _ =>
      .bind (raises_bridges _ _) fun _ =>
        .bind (Build.raises_onSite (raises_relinkLast _ _)) fun _ => .pure _) ?_
  -- every stage may add joints, so that what is held is taken along to the longer skeleton
  rintro n₁ _ text h₁ rfl
  refine .bind (Turtle.readText_follows text (.ofFrame (f := ⟨a.entry, a.rotation, a.depth⟩)
    (hentry.mono h₁))) (fun _ => .bind (raises_noteUnclosed _ _) fun _ =>
      .bind (raises_bridges _ _) fun _ =>
        .bind (Build.raises_onSite (raises_relinkLast _ _)) fun _ => .pure _) ?_
  rintro n₂ ⟨made, s⟩ ⟨made', t⟩ h₂ hread
  obtain ⟨hmade, hst⟩ : List.Forall₂ (M.MadeMoved n₂) made made' ∧ M.StackMoved n₂ s t := hread
  refine .bind (noteUnclosed_follows a hst) (fun _ => .bind (raises_bridges _ _) fun _ =>
    .bind (Build.raises_onSite (raises_relinkLast _ _)) fun _ => .pure _) ?_
  rintro n₃ _ _ h₃ -
  have hmade₃ : List.Forall₂ (M.MadeMoved n₃) made made' := hmade.imp fun _ _ hm => hm.mono h₃
  refine .bind (bridges_follows hmade₃ (hst.mono h₃)) (fun _ =>
    .bind (Build.raises_onSite (raises_relinkLast _ _)) fun _ => .pure _) ?_
  intro n₄ bridges bridges' h₄ hbridges
  have hnodes : List.Forall₂ (M.NodeMoved n₄) (made.map (·.node)) (made'.map (·.node)) := by
    rw [List.forall₂_map_left_iff, List.forall₂_map_right_iff]
    exact hmade₃.imp fun _ _ hm => hm.node.mono h₄
  refine .bind (Build.onSite_follows (relinkLast_follows (hexit.mono (by omega))
    (List.rel_append hnodes hbridges))) (fun _ => .pure _) ?_
  intro n₅ nodes nodes' h₅ hrun
  refine .pure fun n₆ h₆ => ⟨hrun.imp fun _ _ hm => hm.mono h₆, ?_⟩
  show Tally.ofStack t _ = Tally.ofStack s _
  rw [needsBridge_eq hmade hst, hst.eq]
  unfold Tally.ofStack
  rw [Stack.unclosed_rename]
  rfl

theorem raises_replace (old : Node) : Raises (Nursery.joints σ) (replace grammar params old) := by
  refine .bind (Build.raises_onSite (OnSite.raises_refresh _)) fun _ => ?_
  cases rule? grammar old with
  | some rule => exact raises_expand old rule
  | none => exact .pure _

/-- Replacing a node follows, whether a rule applies to it or it is carried on. -/
theorem replace_follows {a b : Node} (h : M.NodeMoved n a b) :
    (M.nurseries σ).Follows n M.PartMoved (replace grammar params a)
      (replace grammar params b) := by
  have hrule : rule? grammar b = rule? grammar a := by rw [h.eq]; rfl
  unfold replace
  rw [hrule]
  refine .bind (Build.onSite_follows (OnSite.refresh_follows h)) (fun _ => ?_) ?_
  · cases rule? grammar a with
    | some rule => exact raises_expand a rule
    | none => exact .pure _
  rintro n₁ _ _ h₁ -
  cases rule? grammar a with
  | some rule => exact expand_follows (h.mono h₁) rule
  | none => exact .pure fun n₂ h₂ => ⟨.cons (h.mono (by omega)) .nil, rfl⟩

theorem raises_replaceAll (row : List Node) :
    Raises (Nursery.joints σ) (replaceAll grammar params row) :=
  .bind (.mapM raises_replace row) fun _ => .bind (Build.raises_check _) fun _ => .pure _

/-- A generation of the renamed row follows a generation of the row, with the same tally. -/
theorem replaceAll_follows {row row' : List Node} (h : List.Forall₂ (M.NodeMoved n) row row') :
    (M.nurseries σ).Follows n M.PartMoved (replaceAll grammar params row)
      (replaceAll grammar params row') := by
  refine .bind (.mapM raises_replace (fun hm h => h.mono hm) (fun hm h => h.mono hm)
    (fun _ _ _ h => replace_follows h) h)
    (fun _ => .bind (Build.raises_check _) fun _ => .pure _) ?_
  intro n₁ parts parts' h₁ hparts
  have htallies : parts'.map (·.tally) = parts.map (·.tally) :=
    map_eq_of_forall₂ (hparts.imp fun _ _ hp => hp.tally_eq)
  rw [htallies]
  refine .bind (Build.check_follows _) (fun _ => .pure _) ?_
  rintro n₂ tally _ h₂ rfl
  refine .pure fun n₃ h₃ => ⟨?_, rfl⟩
  exact List.rel_flatMap (hparts.imp fun _ _ hp => hp.mono (by omega)) fun _ _ hp => hp.nodes

end Expansion

end PlantGrowth
