import PlantGrowth.Proofs.Lockstep
import PlantGrowth.Proofs.Reachable

/-!
# Frames have no memory

A frame writes every joint but the root before it reads it. So of the skeleton that it starts on
only the root joint matters: `OnSite.growAll_agree` runs a frame on two skeletons that agree
there, and after every node they agree on one more exit. In a reachable plant every joint is the
root or the exit of a node (`Reachable.covers`), so in the end the skeletons are equal.

A grown branch neither changes nor draws. A frame of a fully grown plant is therefore a function
of the nodes, the root joint, the time and the noise alone, whatever was shown before it.
`Plant.Reachable.tick_memoryless` states both.
-/

set_option autoImplicit false

namespace PlantGrowth

open Outcome

/-! ## Skeletons that agree on some handles -/

namespace Skeleton

/-- The skeletons have equally many joints, and the same ones at the handles of a list. -/
structure AgreeOn (js : List JointId) (k k' : Skeleton) : Prop where
  size_eq : k'.size = k.size
  get?_eq : ∀ j ∈ js, k'.get? j = k.get? j

variable {js : List JointId} {k k' : Skeleton}

/-- Skeletons that agree on some joints agree on fewer. -/
theorem AgreeOn.subset (h : AgreeOn js k k') {is : List JointId} (hsub : is ⊆ js) :
    AgreeOn is k k' :=
  ⟨h.size_eq, fun j hj => h.get?_eq j (hsub hj)⟩

/-- Where the same joint is written, the skeletons agree afterwards. -/
theorem AgreeOn.put (h : AgreeOn js k k') {i : JointId} (hi : i.index < k.size) (x : Joint) :
    AgreeOn (i :: js) (k.put i x) (k'.put i x) where
  size_eq := by rw [size_put, size_put, h.size_eq]
  get?_eq j hj := by
    by_cases hij : i = j
    · subst hij
      rw [get?_put_self hi, get?_put_self (by rwa [h.size_eq])]
    · rw [get?_put_of_ne hij, get?_put_of_ne hij]
      exact h.get?_eq j ((List.mem_cons.mp hj).resolve_left fun he => hij he.symm)

/-- Skeletons that agree everywhere are equal. -/
theorem AgreeOn.eq (h : AgreeOn js k k') (hall : ∀ i < k.size, ∃ j ∈ js, j.index = i) :
    k' = k := by
  have hjoints : k'.joints = k.joints := by
    apply Array.ext_getElem?
    intro i
    by_cases hi : i < k.size
    · obtain ⟨j, hj, rfl⟩ := hall i hi
      exact h.get?_eq j hj
    · have hi' : ¬ i < k'.size := by rwa [h.size_eq]
      rw [Array.getElem?_eq_none (Nat.not_lt.mp hi), Array.getElem?_eq_none (Nat.not_lt.mp hi')]
  cases k
  cases k'
  exact congrArg _ hjoints

end Skeleton

/-! ## A frame on two skeletons -/

/-- With sources that are related the node does the same, and the sources stay related. -/
def Node.SameWith {σ τ : Type} [RandomSource σ] [RandomSource τ] (S : σ → τ → Prop) (m : Moment)
    (n : Node) : Prop :=
  ∀ (e : Joint) (source : σ) (source' : τ), S source source' →
    Matched (fun a b => b.1 = a.1 ∧ S a.2 b.2) (n.grow m e source) (n.grow m e source')

theorem Node.sameWith_eq {σ : Type} [RandomSource σ] (m : Moment) (n : Node) :
    n.SameWith (fun source source' : σ => source = source') m := by
  rintro e source _ rfl
  exact .refl (fun _ => ⟨rfl, rfl⟩) _

namespace OnSite

variable {σ τ : Type} [RandomSource σ] [RandomSource τ] {S : σ → τ → Prop} {m : Moment}
  {s : Site σ} {t : Site τ}

/-- A node with the same entry does the same, and then its exit is the same as well. -/
theorem growNode_agree {n : Node} {js : List JointId} (hn : n.SameWith S m)
    (h : s.skeleton.AgreeOn js t.skeleton) (hS : S s.source t.source) (hentry : n.entry ∈ js) :
    Alike (fun s t => S s.source t.source)
      (fun a s b t => b = a ∧ S s.source t.source ∧ s.skeleton.AgreeOn (n.exit :: js) t.skeleton)
      (growNode m n s) (growNode m n t) := by
  have hjoint : Option.Rel Eq (s.skeleton.get? n.entry) (t.skeleton.get? n.entry) := by
    rw [h.get?_eq _ hentry]
    cases s.skeleton.get? n.entry with
    | none => exact .none
    | some e => exact .some rfl
  unfold growNode
  refine (joint_alike hS h.size_eq hjoint).bind ?_
  rintro e s' _ t' ⟨rfl, rfl, rfl⟩
  refine (draw_alike (A := fun g g' => g' = g) hS (hn e _ _ hS)).bind ?_
  rintro _ s₁ g t₁ ⟨rfl, source, source', hS₁, rfl, rfl⟩
  refine Alike.bind (setJoint_alike hS₁ (by exact h.size_eq)) ?_
  rintro u s₂ _ t₂ ⟨hlt, rfl, rfl⟩
  exact .pure ⟨rfl, hS₁, h.put hlt g.exit⟩

/-- Nodes in preorder do the same on skeletons that agree where the first of them may start, and
then all their exits are the same. -/
theorem mapM_growNode_agree {start js : List JointId} {row : List Node}
    (hsame : ∀ n ∈ row, n.SameWith S m) (hrow : Row.IsPreorder start row) (hstart : start ⊆ js)
    (h : s.skeleton.AgreeOn js t.skeleton) (hS : S s.source t.source) :
    Alike (fun s t => S s.source t.source)
      (fun a s b t => b = a ∧ S s.source t.source ∧
        s.skeleton.AgreeOn (row.map (·.exit) ++ js) t.skeleton)
      ((row.mapM (growNode m)) s) ((row.mapM (growNode m)) t) := by
  induction row generalizing start js s t with
  | nil =>
    rw [List.mapM_nil, List.mapM_nil]
    exact .pure ⟨rfl, hS, h⟩
  | cons n row ih =>
    obtain ⟨hentry, hrest⟩ := hrow
    have hextend : Row.extend start n ⊆ n.exit :: js :=
      List.cons_subset_cons _ fun j hj => hstart ((Row.backTo_sublist n.entry start).subset hj)
    rw [List.mapM_cons, List.mapM_cons]
    refine (growNode_agree (hsame n List.mem_cons_self) h hS (hstart hentry)).bind ?_
    rintro a s₁ _ t₁ ⟨rfl, hS₁, h₁⟩
    refine (ih (fun n' hn' => hsame n' (List.mem_cons_of_mem n hn')) hrest hextend h₁ hS₁).bind ?_
    rintro results s₂ _ t₂ ⟨rfl, hS₂, h₂⟩
    refine .pure ⟨rfl, hS₂, h₂.subset ?_⟩
    simp

/-- Growing a row needs the joints of its start only: whatever else differed has been written anew
behind it. -/
theorem growAll_agree {start : List JointId} {row : List Node}
    (hsame : ∀ n ∈ row, n.SameWith S m) (hrow : Row.IsPreorder start row)
    (h : s.skeleton.AgreeOn start t.skeleton) (hS : S s.source t.source) :
    Alike (fun s t => S s.source t.source)
      (fun a s b t => b = a ∧ S s.source t.source ∧
        s.skeleton.AgreeOn (row.map (·.exit) ++ start) t.skeleton)
      (growAll m row s) (growAll m row t) := by
  unfold growAll
  refine (mapM_growNode_agree hsame hrow (List.Subset.refl _) h hS).bind ?_
  rintro results s₁ _ t₁ ⟨rfl, hS₁, h₁⟩
  exact .pure ⟨rfl, hS₁, h₁⟩

/-- A frame adds and removes no joints. -/
theorem size_of_mapM_growNode {t : Site σ} {row : List Node} {results : List (Node × Option Mark)}
    (h : (row.mapM (growNode m)) s = .ok results t) : t.skeleton.size = s.skeleton.size := by
  induction row generalizing results s with
  | nil =>
    obtain ⟨-, rfl⟩ := Outcome.mapM_nil_eq_ok.mp h
    rfl
  | cons n row ih =>
    obtain ⟨result, r, results', hn, hrest, -⟩ := Outcome.mapM_cons_eq_ok.mp h
    obtain ⟨e, g, source, -, -, -, -, rfl⟩ := growNode_eq_ok hn
    rw [ih hrest, Skeleton.size_put]

/-- A frame adds no joint. -/
theorem size_of_growAll {t : Site σ} {row row' : List Node} {marks : List Mark}
    (h : growAll m row s = .ok (row', marks) t) : t.skeleton.size = s.skeleton.size := by
  obtain ⟨results, hresults, -, -⟩ := growAll_eq_ok h
  exact size_of_mapM_growNode hresults

end OnSite

/-! ## Joints in use -/

/-- Every joint of the skeleton is the root or the exit of a node. -/
def Row.Covers (root : JointId) (row : List Node) (k : Skeleton) : Prop :=
  ∀ i < k.size, ∃ j ∈ root :: row.map (·.exit), j.index = i

/-- A skeleton that has only the joints of a rooted row has only the root and the exits. -/
theorem Rooted.covers_renamed {origin : Vec} {root : JointId} {row : List Node} {k k' : Skeleton}
    {id : UInt32} {ρ : JointId → JointId} (h : Rooted origin root row k id)
    (hr : Renamed ρ (Row.handles row) k k') :
    Row.Covers (ρ root) (row.map (Node.rename ρ)) k' := by
  have hexit : ∀ a ∈ row, ρ a.exit ∈ ρ root :: (row.map (Node.rename ρ)).map (·.exit) :=
    fun a ha => List.mem_cons_of_mem _
      (List.mem_map_of_mem (f := Node.exit) (List.mem_map_of_mem (f := Node.rename ρ) ha))
  intro i hi
  obtain ⟨j, hj, rfl⟩ := hr.onto i hi
  refine ⟨ρ j, ?_, rfl⟩
  obtain ⟨n, hn, hj⟩ := List.mem_flatMap.mp hj
  -- an entry is the root or the exit of another node
  rcases List.mem_pair.mp hj with rfl | rfl
  · rcases h.entry_cases hn with he | ⟨a, ha, -, he⟩
    · rw [he]
      exact List.mem_cons_self
    · rw [he]
      exact hexit a ha
  · exact hexit n hn

namespace Plant

variable {σ : Type} [RandomSource σ] {origin : Vec}

theorem covers_of_sprout {letter : Char} {rules : Rules String} {params : GrowthParams}
    {s t : Surroundings σ} {p : Plant} (h : sprout letter rules params origin s = .ok p t) :
    ∃ root, Rooted origin root p.nodes p.skeleton p.nextId ∧
      Row.Covers root p.nodes p.skeleton := by
  obtain ⟨node, m, hseed, rfl, -⟩ := sprout_eq_ok h
  refine ⟨ground, rooted_of_seeded hseed, ?_⟩
  obtain ⟨hatt, -⟩ := hseed.attached
  have hbound : (soil origin).size ≤ (0 : UInt32).toNat + 1 := Nat.le_refl 1
  have hsize : m.site.skeleton.size = 1 + 1 := hatt.size_eq
  have hexit : node.exit.index = (soil origin).size := by simpa using hatt.exit_index hbound
  intro i hi
  rw [hsize] at hi
  -- the root has the first place, the exit of the only node the second
  rcases Nat.lt_succ_iff_lt_or_eq.mp hi with hi | rfl
  · refine ⟨ground, List.mem_cons_self, ?_⟩
    rw [Nat.lt_one_iff.mp hi]
    rfl
  · exact ⟨node.exit, by simp, hexit⟩

/-- Compaction leaves only joints in use, and these are the root and the exits. -/
theorem covers_of_generate {root : JointId} {p p' : Plant} {tally : Tally} {s t : Surroundings σ}
    (hroot : Rooted origin root p.nodes p.skeleton p.nextId) (hne : p.nodes ≠ [])
    (h : p.generate s = .ok (p', tally) t) :
    ∃ root', Rooted origin root' p'.nodes p'.skeleton p'.nextId ∧
      Row.Covers root' p'.nodes p'.skeleton := by
  obtain ⟨parts, m, ρ, hparts, hrooted, -, hnodes, hrenamed, hid, -, -⟩ :=
    exists_renamed_of_generate hroot h
  have hne' := Expansion.flatMap_nodes_ne_nil hparts hroot hne
  rw [hnodes, hid]
  exact ⟨ρ root, hrooted.renamed hne' hrenamed, hrooted.covers_renamed hrenamed⟩

/-- Every joint of a plant that can be reached is the root or the exit of a node. -/
theorem Reachable.covers {p : Plant} (h : Reachable origin p) :
    ∃ root, Rooted origin root p.nodes p.skeleton p.nextId ∧
      Row.Covers root p.nodes p.skeleton := by
  induction h with
  | sprout h => exact covers_of_sprout h
  | generate hp h ih =>
    obtain ⟨root, hroot, -⟩ := ih
    exact covers_of_generate hroot hp.sound.ne_nil h
  | tick _ h ih =>
    obtain ⟨root, hroot, hcovers⟩ := ih
    obtain ⟨nodes, k, source, hgrow, rfl, -⟩ := tick_eq_ok h
    obtain ⟨-, -, -, -, hrooted⟩ := shown_of_growAll hgrow hroot
    refine ⟨root, hrooted, ?_⟩
    intro i hi
    rw [OnSite.size_of_growAll hgrow] at hi
    rw [Row.map_exit_congr (OnSite.handles_of_growAll hgrow)]
    exact hcovers i hi

end Plant

/-- The first node starts at the root. -/
theorem Rooted.entry_of_head? {origin : Vec} {root : JointId} {row : List Node} {k : Skeleton}
    {id : UInt32} (h : Rooted origin root row k id) {n : Node} (hn : n ∈ row.head?) :
    n.entry = root := by
  obtain ⟨rest, hrest⟩ := List.head?_eq_some_iff.mp hn
  have hpre := h.preorder
  rw [hrest] at hpre
  exact List.mem_singleton.mp hpre.1

/-! ## Plants with the same root -/

namespace Plant

/-- The same plant on a skeleton of the same size that may differ in every joint but the root,
where the first node starts. -/
structure SameRoot (p q : Plant) : Prop where
  plant_eq : q = { p with skeleton := q.skeleton }
  size_eq : q.skeleton.size = p.skeleton.size
  root_eq : ∀ n ∈ p.nodes.head?, q.skeleton.get? n.entry = p.skeleton.get? n.entry

section Frames

variable {σ τ : Type} [RandomSource σ] [RandomSource τ] {S : σ → τ → Prop} {origin : Vec}
  {p q : Plant}

/-- A frame of two plants with the same root has the same outcome, if their nodes do the same with
the sources at hand. -/
theorem Reachable.tick_alike (hp : Reachable origin p) (hpq : SameRoot p q) (time : Scalar)
    (noise : Noise) (hsame : ∀ n ∈ p.nodes, n.SameWith S ⟨p.params, p.age, time, noise⟩)
    {s : Surroundings σ} {t : Surroundings τ} (hS : S s.source t.source) :
    Alike (fun s' t' => S s'.source t'.source ∧ s'.journal = s.journal ∧ t'.journal = t.journal)
      (fun a s' b t' => b = a ∧ S s'.source t'.source ∧ s'.journal = s.journal ∧
        t'.journal = t.journal)
      (p.tick time noise s) (q.tick time noise t) := by
  obtain ⟨root, hroot, hcovers⟩ := hp.covers
  have hagree : p.skeleton.AgreeOn [root] q.skeleton := by
    obtain ⟨first, rest, hnodes⟩ := List.exists_cons_of_ne_nil hp.sound.ne_nil
    have hfirst : first ∈ p.nodes.head? := by rw [hnodes]; rfl
    refine ⟨hpq.size_eq, ?_⟩
    intro j hj
    rw [List.mem_singleton.mp hj, ← hroot.entry_of_head? hfirst]
    exact hpq.root_eq first hfirst
  have hgrow := OnSite.growAll_agree (s := ⟨p.skeleton, s.source⟩) (t := ⟨q.skeleton, t.source⟩)
    hsame hroot.preorder hagree hS
  -- every joint is the root or an exit, so at the end the skeletons are the same
  have hframe := Garden.onSkeleton_alike (A := fun a k b k' => b = a ∧ k' = k)
    (hgrow.and_ok.mono (fun _ _ hS' => hS') (by
      rintro ⟨row, marks⟩ s' b t' ⟨⟨rfl, hS', hagree'⟩, hok, -⟩
      refine ⟨⟨rfl, hagree'.eq ?_⟩, hS'⟩
      intro i hi
      rw [OnSite.size_of_growAll hok] at hi
      obtain ⟨j, hj, hij⟩ := hcovers i hi
      exact ⟨j, by simpa [or_comm] using hj, hij⟩))
  rw [hpq.plant_eq]
  unfold Plant.tick
  refine hframe.bind ?_
  rintro ⟨⟨nodes, marks⟩, k⟩ s' ⟨⟨_, _⟩, _⟩ t' ⟨⟨h, h'⟩, hrest⟩
  cases h
  cases h'
  exact .pure ⟨rfl, hrest⟩

/-- A frame of a reachable plant depends on the root joint alone. -/
theorem Reachable.tick_eq_of_sameRoot (hp : Reachable origin p) (hpq : SameRoot p q)
    (time : Scalar) (noise : Noise) :
    (q.tick time noise : Garden σ (Plant × List Mark)) = p.tick time noise := by
  funext s
  have halike := hp.tick_alike (s := s) (t := s) hpq time noise (fun n _ => n.sameWith_eq _) rfl
  refine (Alike.eq (halike.mono (fun _ _ => Surroundings.eq_of_kept) ?_)).symm
  rintro a s' b t' ⟨rfl, hst⟩
  exact ⟨rfl, Surroundings.eq_of_kept hst⟩

end Frames

end Plant

/-! ## Grown nodes -/

namespace Branch

variable {σ : Type} [RandomSource σ]

/-- A branch that has grown out draws nothing. -/
theorem advance_of_grown {b : Branch} (h : b.isGrown = true) (m : Moment) (entry : Joint)
    (source : σ) : b.advance m entry source = .ok (b, source) := by
  simp [advance, h]

end Branch

namespace Node

variable {σ τ : Type} [RandomSource σ] [RandomSource τ] {n : Node}

/-- A grown node does the same with any source, which it leaves as it is. -/
theorem sameWith_of_grown (h : ∀ b, n.branch? = some b → b.isGrown = true) (m : Moment) (source : σ)
    (source' : τ) : n.SameWith (fun a b => a = source ∧ b = source') m := by
  rintro e _ _ ⟨rfl, rfl⟩
  unfold grow
  cases hkind : n.kind with
  | placeholder => exact .ok ⟨rfl, rfl, rfl⟩
  | bud colour => exact .ok ⟨rfl, rfl, rfl⟩
  | branch b =>
    have hb : b.isGrown = true := h b (by rw [branch?, hkind])
    simp only [growBranch, Branch.advance_of_grown hb]
    refine Matched.bind (R := fun a a' => a = (b, _) ∧ a' = (b, _)) (.ok ⟨rfl, rfl⟩) ?_
    rintro _ _ ⟨rfl, rfl⟩
    -- nothing is drawn from here on, whether growth has reached the branch or not
    cases hready : e.ready with
    | false => exact .ok ⟨rfl, rfl, rfl⟩
    | true =>
      refine Matched.bind (.refl (R := Eq) (fun _ => rfl) _) ?_
      rintro exit _ rfl
      exact .ok ⟨rfl, rfl, rfl⟩

/-- A grown node is the same after a frame. -/
theorem Grows.node_eq {m : Moment} {entry : Joint} {source source' : σ} {g : Grown}
    (h : n.Grows m entry source g source') (hgrown : ∀ b, n.branch? = some b → b.isGrown = true) :
    g.node = n := by
  cases h with
  | placeholder _ => rfl
  | budHidden _ _ _ => rfl
  | budShown _ _ => rfl
  | waiting _ _ => rfl
  | @reached before b _ _ _ hkind _ hadvance _ _ =>
    have hbefore : before.isGrown = true := hgrown before (by rw [branch?, hkind])
    rw [Branch.advance_of_grown hbefore] at hadvance
    cases hadvance
    rw [← hkind]

end Node

/-- Grown nodes are the same after a frame. -/
theorem nodes_eq_of_shown {σ : Type} [RandomSource σ] {m : Moment} {k : Skeleton} {row : List Node}
    {results : List (Node × Option Mark)} (h : List.Forall₂ (Shown σ m k) row results)
    (hgrown : ∀ n ∈ row, ∀ b, n.branch? = some b → b.isGrown = true) :
    results.map (·.1) = row := by
  induction h with
  | nil => rfl
  | @cons n result row results hn _ ih =>
    obtain ⟨e, x, source, source', -, -, hgrows⟩ := hn
    rw [List.map_cons, ih fun a ha => hgrown a (List.mem_cons_of_mem n ha)]
    rw [show result.1 = n from hgrows.node_eq (hgrown n List.mem_cons_self)]

/-! ## Fully grown plants -/

namespace Plant

/-- A plant has grown out if all of its branches have. -/
theorem isFullyGrown_iff {p : Plant} : p.isFullyGrown = true ↔
    ∀ n ∈ p.nodes, ∀ b, n.branch? = some b → b.isGrown = true := by
  rw [isFullyGrown, List.all_eq_true]
  refine forall_congr' fun n => forall_congr' fun _ => ?_
  cases n.branch? <;> simp

/-- The plant after any number of frames. -/
inductive Ticked (p : Plant) : Plant → Prop
  | refl : Ticked p p
  | tick {σ : Type} [RandomSource σ] {q r : Plant} {time : Scalar} {noise : Noise}
      {marks : List Mark} {s t : Surroundings σ} :
      Ticked p q → q.tick time noise s = .ok (r, marks) t → Ticked p r

variable {origin : Vec} {p q r : Plant}

theorem SameRoot.refl (p : Plant) : SameRoot p p := ⟨rfl, rfl, fun _ _ => rfl⟩

/-- Every joint at which a node ends can be replaced. -/
theorem Reachable.sameRoot_put (hp : Reachable origin p) {n : Node} (hn : n ∈ p.nodes)
    (x : Joint) : SameRoot p { p with skeleton := p.skeleton.put n.exit x } := by
  obtain ⟨root, hroot⟩ := hp.sound.rooted
  refine ⟨rfl, Skeleton.size_put .., ?_⟩
  intro first hfirst
  rw [hroot.entry_of_head? hfirst]
  exact Skeleton.get?_put_of_ne (hroot.distinct.exit_ne_root hn) x

theorem SameRoot.trans (h : SameRoot p q) (h' : SameRoot q r) : SameRoot p r where
  plant_eq := by
    rw [h'.plant_eq, h.plant_eq]
  size_eq := h'.size_eq.trans h.size_eq
  root_eq n hn := by
    have hq : q.nodes = p.nodes := by rw [h.plant_eq]
    rw [h'.root_eq n (by rwa [hq]), h.root_eq n hn]

/-- A frame of a fully grown plant leaves everything but the joints behind the root as it is. -/
theorem Reachable.sameRoot_of_tick {σ : Type} [RandomSource σ] {time : Scalar} {noise : Noise}
    {marks : List Mark} {s t : Surroundings σ} (hp : Reachable origin p)
    (hgrown : p.isFullyGrown = true) (h : p.tick time noise s = .ok (q, marks) t) :
    SameRoot p q := by
  obtain ⟨⟨root, hroot⟩, hne, -⟩ := hp.sound
  obtain ⟨nodes, k, source, hgrow, rfl, -⟩ := tick_eq_ok h
  obtain ⟨results, rfl, -, hshown, hrooted⟩ := shown_of_growAll hgrow hroot
  have hnodes : results.map (·.1) = p.nodes :=
    nodes_eq_of_shown hshown (isFullyGrown_iff.mp hgrown)
  have hsize : k.size = p.skeleton.size := OnSite.size_of_growAll hgrow
  refine ⟨?_, hsize, ?_⟩
  · rw [hnodes]
  · intro n hn
    rw [hroot.entry_of_head? hn, hroot.ground]
    exact hrooted.ground

/-- Frames of a plant that has grown out change nothing but joints. -/
theorem Ticked.sameRoot (h : Ticked p q) (hp : Reachable origin p)
    (hgrown : p.isFullyGrown = true) : Reachable origin q ∧ SameRoot p q := by
  induction h with
  | refl => exact ⟨hp, .refl p⟩
  | tick _ h ih =>
    obtain ⟨hq, hpq⟩ := ih
    refine ⟨hq.tick h, hpq.trans (hq.sameRoot_of_tick ?_ h)⟩
    rw [hpq.plant_eq]
    exact hgrown

/-- A frame of a fully grown plant is a value: it has no effects, and the random source plays no
part in it. -/
theorem Reachable.exists_tick_eq_check (hp : Reachable origin p) (hgrown : p.isFullyGrown = true)
    (time : Scalar) (noise : Noise) : ∃ frame : Except Fault (Plant × List Mark),
      ∀ (σ : Type) [RandomSource σ], (p.tick time noise : Garden σ _) = Garden.check frame := by
  -- any source will do to find the frame, for every other one leads to the same
  let still : Surroundings Reel := ⟨⟨#[], 0⟩, #[]⟩
  have halike : ∀ (σ : Type) [RandomSource σ] (s : Surroundings σ),
      Alike (fun _ s' => s' = s) (fun a _ b s' => b = a ∧ s' = s)
        (p.tick time noise still) (p.tick time noise s) := by
    intro σ _ s
    refine (hp.tick_alike (s := still) (t := s) (.refl p) time noise
      (fun n hn => Node.sameWith_of_grown (isFullyGrown_iff.mp hgrown n hn) _ _ _)
      ⟨rfl, rfl⟩).mono ?_ ?_
    · rintro _ ⟨_, _⟩ ⟨⟨-, rfl⟩, -, rfl⟩
      rfl
    · rintro a _ b ⟨_, _⟩ ⟨rfl, ⟨-, rfl⟩, -, rfl⟩
      exact ⟨rfl, rfl⟩
  cases hstill : p.tick time noise still with
  | ok a t =>
    refine ⟨.ok a, fun σ _ => funext fun s => ?_⟩
    obtain ⟨b, s', hs, rfl, rfl⟩ := (halike σ s).exists_of_ok hstill
    exact hs
  | error e t =>
    refine ⟨.error e, fun σ _ => funext fun s => ?_⟩
    obtain ⟨s', hs, rfl⟩ := (halike σ s).exists_of_error hstill
    exact hs

/-- Frames have no memory. A frame of a reachable plant is the same on any skeleton that has the
same root joint, whatever stands at the other joints, with the same marks, draws and faults. And
the frame of a fully grown plant at a time is one and the same whatever frames went before. -/
theorem Reachable.tick_memoryless (hp : Reachable origin p) (time : Scalar) (noise : Noise) :
    (∀ q, SameRoot p q → ∀ (σ : Type) [RandomSource σ],
      (q.tick time noise : Garden σ (Plant × List Mark)) = p.tick time noise) ∧
    (p.isFullyGrown = true → ∃ frame : Except Fault (Plant × List Mark),
      ∀ q, Ticked p q → ∀ (σ : Type) [RandomSource σ],
        (q.tick time noise : Garden σ (Plant × List Mark)) = Garden.check frame) := by
  refine ⟨fun q hpq σ _ => hp.tick_eq_of_sameRoot hpq time noise, ?_⟩
  intro hgrown
  obtain ⟨frame, hframe⟩ := hp.exists_tick_eq_check hgrown time noise
  refine ⟨frame, fun q hq σ _ => ?_⟩
  rw [hp.tick_eq_of_sameRoot (hq.sameRoot hp hgrown).2 time noise]
  exact hframe σ

/-- A plant in moving air that has branched once and has grown to its full length in one frame. -/
def shoot : Garden Reel Plant := do
  let params : GrowthParams := { growthSpeed := 100, flowField := some {} }
  let p ← sprout 'X' (Rules.empty.insert 'X' (.fixed "F[+F]X")) params ⟨0, 0⟩
  let (p, _) ← p.generate
  let (p, _) ← p.tick 0 (.constant 1)
  return p

theorem reachable_of_shoot {s t : Surroundings Reel} {p : Plant} (h : shoot s = .ok p t) :
    Reachable ⟨0, 0⟩ p := by
  simp only [shoot, Outcome.bind_eq_ok, Outcome.pure_eq_ok] at h
  obtain ⟨p₀, r₀, hsprout, ⟨p₁, tally⟩, r₁, hgenerate, ⟨p₂, marks⟩, r₂, htick, rfl, rfl⟩ := h
  exact .tick (.generate (.sprout hsprout) hgenerate) htick

/-- The frames of the shoot have no memory: neither of what stood at the ends of its nodes, nor of
the frames before, since it is fully grown. -/
theorem Reachable.tick_memoryless_shoot : ∃ p t, shoot ⟨⟨#[0], 0⟩, #[]⟩ = .ok p t ∧
    p.nodes ≠ [] ∧ p.isFullyGrown = true ∧
    (∀ n ∈ p.nodes, ∀ x, (({ p with skeleton := p.skeleton.put n.exit x } : Plant).tick 20
      (.constant 1) : Garden Reel (Plant × List Mark)) = p.tick 20 (.constant 1)) ∧
    ∃ frame : Except Fault (Plant × List Mark), ∀ q, Ticked p q →
      (q.tick 20 (.constant 1) : Garden Reel (Plant × List Mark)) = Garden.check frame := by
  have hok : Outcome.isOk (fun p => p.isFullyGrown) (shoot ⟨⟨#[0], 0⟩, #[]⟩) = true := by
    decide +kernel
  obtain ⟨p, t, h, hgrown⟩ := Outcome.exists_of_isOk hok
  have hp := reachable_of_shoot h
  obtain ⟨hsame, hagain⟩ := hp.tick_memoryless 20 (.constant 1)
  obtain ⟨frame, hframe⟩ := hagain hgrown
  exact ⟨p, t, h, hp.sound.ne_nil, hgrown, fun n hn x => hsame _ (hp.sameRoot_put hn x) Reel,
    frame, fun q hq => hframe q hq Reel⟩

end Plant

end PlantGrowth
