import PlantGrowth.Proofs.JointCount
import PlantGrowth.Proofs.Passes
import PlantGrowth.Proofs.Stages

/-!
# No handle wraps

The handle of a new joint is the number of joints cut down to 32 bits, so it would be that of an
older joint once there are `UInt32.size` of them. This does not happen, because identities run out
first. At every stage there is at most one joint more than identities are given away, and where a
joint is about to be made there is not even that (`BuildStage.Safe`): a node takes its identity
before its joint, and taking it fails at the last word. Only a compaction makes the joints fewer,
and nothing makes the identities fewer, so the bound holds on from stage to stage
(`Plant.Visits.safe`).

A compaction numbers the joints anew. It keeps one joint for each node and the root, and that is
fewer than there were if a node was replaced (`Plant.size_lt_of_compact`), so its handles do not
wrap either. `Plant.handles_exact` is the result.
-/

set_option autoImplicit false

namespace PlantGrowth

/-- Attached nodes hold joints inside of the skeleton behind them. -/
theorem Attached.handle_inside {k k' : Skeleton} {id id' : UInt32} {ns : List Node}
    (h : Attached k id ns k' id') (hk : k.size ≤ id.toNat + 1) :
    ∀ j ∈ Row.handles ns, j.index < k'.size := by
  intro j hj
  obtain ⟨n, hn, hj⟩ := List.mem_flatMap.mp hj
  obtain ⟨e, hentry, hexit⟩ := h.inSync hk hn
  rcases List.mem_pair.mp hj with rfl | rfl
  · exact Skeleton.index_lt_of_get? hentry
  · exact Skeleton.index_lt_of_get? hexit

/-! ## Safe stages -/

/-- All handles held are those of joints, and every joint but that of the root has an identity,
the one about to be made included. -/
structure BuildStage.Safe (x : BuildStage) : Prop where
  inside : ∀ j ∈ x.held, j.index < x.skeleton.size
  size_le : x.skeleton.size + x.pending.toNat ≤ x.nextId.toNat + 1

namespace BuildStage.Safe

/-- More handles may be held as long as they lie inside. -/
theorem holding {x : BuildStage} (h : x.Safe) {more : List JointId}
    (hmore : ∀ j ∈ more, j.index < x.skeleton.size) : (x.holding more).Safe where
  inside j hj := (List.mem_append.mp hj).elim (hmore j) (h.inside j)
  size_le := h.size_le

variable {σ : Type} {s t : Nursery σ} {held : List JointId}

/-- Taking an identity makes room for a joint. -/
theorem named {id : UInt32} (h : (s.stage held false).Safe) (hid : Build.freshId s = .ok id t) :
    (t.stage held true).Safe ∧ t.site.skeleton.size = s.site.skeleton.size := by
  obtain ⟨next, hnext, -, rfl⟩ := Build.freshId_eq_ok.mp hid
  refine ⟨⟨h.inside, ?_⟩, rfl⟩
  show s.site.skeleton.size + 1 ≤ next.toNat + 1
  rw [addWord_ok hnext]
  exact Nat.succ_le_succ h.size_le

/-- Safety depends on the number of joints and on the next identity only. -/
theorem congr (h : (s.stage held false).Safe)
    (hsize : t.site.skeleton.size = s.site.skeleton.size) (hid : t.nextId = s.nextId) :
    (t.stage held false).Safe := by
  refine ⟨fun j hj => ?_, ?_⟩
  · exact (h.inside j hj).trans_eq hsize.symm
  · show t.site.skeleton.size ≤ t.nextId.toNat + 1
    rw [hsize, hid]
    exact h.size_le

/-- Nodes that are attached hold handles of joints. -/
theorem attached {ns : List Node} (h : (s.stage held false).Safe)
    (ha : Attached s.site.skeleton s.nextId ns t.site.skeleton t.nextId) :
    (t.stage (Row.handles ns ++ held) false).Safe ∧
      s.site.skeleton.size ≤ t.site.skeleton.size := by
  have hle : s.site.skeleton.size ≤ t.site.skeleton.size := by
    rw [ha.size_eq]
    exact Nat.le_add_right ..
  refine ⟨⟨fun j hj => ?_, ha.size_le h.size_le⟩, hle⟩
  rcases List.mem_append.mp hj with hj | hj
  · exact ha.handle_inside h.size_le j hj
  · exact (h.inside j hj).trans_le hle

end BuildStage.Safe

namespace Turtle

/-- A turtle that stands on ground holds joints inside of the skeleton. -/
theorem Grounded.safe {σ : Type} {stack : Stack} {s : Nursery σ} (h : Grounded stack s) :
    (s.stage stack.joints false).Safe where
  inside := List.forall_mem_map.mpr h.joints
  size_le := h.size_le

variable {σ : Type} [RandomSource σ] {params : GrowthParams} {stack : Stack} {s : Nursery σ}

/-- The stages of a text are safe if the turtle stands on joints. -/
theorem Visits.safe {text : List Letter} {x : BuildStage} (h : Visits params text stack s x)
    (hs : Grounded stack s) : x.Safe ∧ s.site.skeleton.size ≤ x.skeleton.size := by
  -- by letters: each leaves the turtle on joints, so the stages of the rest are safe
  induction h with
  | here text stack s => exact ⟨hs.safe, Nat.le_refl _⟩
  | named text stack _ hid =>
    obtain ⟨hsafe, hsize⟩ := hs.safe.named hid
    exact ⟨hsafe, hsize.ge⟩
  | rest hread _ ih =>
    have hstep := step_of_read hread
    obtain ⟨hsafe, hle⟩ := ih (hstep.grounded hs)
    obtain ⟨hmade, hmore⟩ := hs.safe.attached hstep.attached
    refine ⟨hsafe.holding ?_, hmore.trans hle⟩
    intro j hj
    exact (hmade.inside j (List.mem_append_left _ hj)).trans_le hle

end Turtle

namespace Expansion

variable {σ : Type} [RandomSource σ] {grammar : Grammar} {params : GrowthParams} {old : Node}
  {s t : Nursery σ}

omit [RandomSource σ] in
/-- Passing a joint on adds none. -/
theorem safe_of_refresh {held : List JointId} {u : Unit} (hs : (s.stage held false).Safe)
    (h : Build.onSite (.refresh old) s = .ok u t) :
    (t.stage held false).Safe ∧ t.site.skeleton.size = s.site.skeleton.size := by
  obtain ⟨site, hsite, rfl⟩ := Build.onSite_eq_ok.mp h
  obtain ⟨e, -, -, rfl⟩ := OnSite.refresh_eq_ok.mp hsite
  have hsize := s.site.skeleton.size_put old.exit (old.carry e)
  exact ⟨hs.congr hsize rfl, hsize⟩

theorem Opens.safe {held : List JointId} {text : List Letter} (h : Opens grammar old s text t)
    (hs : (s.stage held false).Safe) :
    (t.stage held false).Safe ∧ t.site.skeleton.size = s.site.skeleton.size := by
  obtain ⟨rule, u, m, -, hrefresh, hselect⟩ := h
  obtain ⟨hm, hsize⟩ := safe_of_refresh hs hrefresh
  obtain ⟨site, hsite, rfl⟩ := Build.onSite_eq_ok.mp hselect
  obtain ⟨source, -, rfl⟩ := OnSite.draw_eq_ok.mp hsite
  exact ⟨hm.congr rfl rfl, hsize⟩

omit [RandomSource σ] in
/-- The turtle starts on the entry of the node that is expanded. -/
theorem grounded_of_safe (hs : (s.stage (Row.handles [old]) false).Safe) :
    Turtle.Grounded (.ofFrame ⟨old.entry, old.rotation, old.depth⟩) s := by
  refine ⟨fun f hf => ?_, hs.size_le⟩
  rw [List.mem_singleton.mp hf]
  exact hs.inside old.entry (Row.entry_mem_handles List.mem_cons_self)

/-- At every letter of a text, the nodes made so far, the old node and the stack hold joints inside
of the skeleton. -/
theorem Reads.safe {made : List Turtle.Made} {stack : Stack}
    (h : Reads grammar params old s made stack t)
    (hs : (s.stage (Row.handles [old]) false).Safe) :
    (t.stage (Row.handles (made.map (·.node)) ++ Row.handles [old] ++ stack.joints) false).Safe ∧
      s.site.skeleton.size ≤ t.site.skeleton.size := by
  obtain ⟨text, m, n, u, hopens, hread, hnote⟩ := h
  obtain ⟨hm, hsize⟩ := hopens.safe hs
  obtain ⟨journal, rfl⟩ := journal_of_noteUnclosed hnote
  have hrun := Turtle.run_of_readText hread
  have hend := (hrun.grounded (grounded_of_safe hm)).safe
  obtain ⟨hmade, hle⟩ := hm.attached hrun.attached
  refine ⟨⟨?_, hend.size_le⟩, hsize.ge.trans hle⟩
  intro j hj
  rcases List.mem_append.mp hj with hj | hj
  · exact hmade.inside j hj
  · exact hend.inside j hj

/-- The stages of a replacement are safe if the node has its joints. -/
theorem Visits.safe {x : BuildStage} (h : Visits grammar params old s x)
    (hs : (s.stage (Row.handles [old]) false).Safe) :
    x.Safe ∧ s.site.skeleton.size ≤ x.skeleton.size := by
  cases h with
  | start => exact ⟨hs, Nat.le_refl _⟩
  | refreshed hrefresh =>
    obtain ⟨hsafe, hsize⟩ := safe_of_refresh hs hrefresh
    exact ⟨hsafe, hsize.ge⟩
  | reading hopens hvisits =>
    obtain ⟨hm, hsize⟩ := hopens.safe hs
    obtain ⟨hsafe, hle⟩ := hvisits.safe (grounded_of_safe hm)
    refine ⟨hsafe.holding ?_, hsize.ge.trans hle⟩
    intro j hj
    exact (hm.inside j hj).trans_le hle
  | named hreads _ hid =>
    obtain ⟨hread, hle⟩ := hreads.safe hs
    obtain ⟨hsafe, hsize⟩ := hread.named hid
    exact ⟨hsafe, hle.trans hsize.ge⟩
  | bridged hreads _ hbridge =>
    obtain ⟨hread, hle⟩ := hreads.safe hs
    obtain ⟨hsafe, hmore⟩ := hread.attached (isBridge_of_bridge hbridge).attached
    exact ⟨hsafe, hle.trans hmore⟩

/-- The stages of a pass are safe if the row is rooted, behind nodes that are done. -/
theorem PassVisits.safe {origin : Vec} {root : JointId} {before row : List Node} {x : BuildStage}
    (h : PassVisits grammar params row s x)
    (hroot : Rooted origin root (before ++ row) s.site.skeleton s.nextId) :
    x.Safe ∧ s.site.skeleton.size ≤ x.skeleton.size := by
  induction h generalizing before with
  | done s => exact ⟨⟨fun _ hj => absurd hj List.not_mem_nil, hroot.size_le⟩, Nat.le_refl _⟩
  | @here old row s x hvisits =>
    -- the nodes to come still have the joints they had when the node was reached
    have hinside : ∀ {more}, more ⊆ before ++ old :: row → ∀ j ∈ Row.handles more,
        j.index < s.site.skeleton.size :=
      fun hmore j hj => hroot.handle_inside j (Row.handles_subset hmore hj)
    obtain ⟨hsafe, hle⟩ := hvisits.safe ⟨hinside (by simp), hroot.size_le⟩
    refine ⟨hsafe.holding ?_, hle⟩
    intro j hj
    have hrow : row ⊆ before ++ old :: row := by simp
    exact (hinside hrow j hj).trans_le hle
  | @rest old row s t r x hr _ ih =>
    -- what has been replaced joins the nodes that are done
    have hrep := replaced_of_replace hr hroot.entry_ne_exit hroot.size_le
    have hnext := hroot.replaced hrep
    obtain ⟨hsafe, hle⟩ := ih hnext
    refine ⟨hsafe.holding ?_, hrep.size_le.1.trans hle⟩
    intro j hj
    exact (hnext.handle_inside j (Row.handles_subset (by simp) hj)).trans_le hle

end Expansion

/-! ## Plants -/

/-- A frame adds and removes no joints, wherever it stops. -/
theorem OnSite.size_state_growNode {σ : Type} [RandomSource σ] (m : Moment) (n : Node)
    (s : Site σ) : (Outcome.state (growNode m n s)).skeleton.size = s.skeleton.size := by
  cases h : growNode m n s with
  | ok result t =>
    obtain ⟨e, g, source, -, -, -, -, rfl⟩ := growNode_eq_ok h
    exact Skeleton.size_put ..
  | error e t =>
    simp only [growNode, Outcome.bind_eq_error, Outcome.pure_eq_error, joint_eq_ok, draw_eq_ok,
      draw_eq_error, and_false, exists_false, or_false] at h
    rcases h with h | ⟨j, r, ⟨-, rfl⟩, ⟨-, rfl⟩ | ⟨g, r', ⟨source, -, rfl⟩, h⟩⟩
    · rw [eq_of_joint_eq_error h]; rfl
    · rfl
    · rw [eq_of_setJoint_eq_error h]; rfl

/-- A frame adds no joint, whether it comes to its end or stops in between. -/
theorem OnSite.size_state_mapM_growNode {σ : Type} [RandomSource σ] (m : Moment) (row : List Node)
    (s : Site σ) :
    (Outcome.state ((row.mapM (growNode m)) s)).skeleton.size = s.skeleton.size := by
  induction row generalizing s with
  | nil => rfl
  | cons n row ih =>
    have hn := size_state_growNode m n s
    rw [List.mapM_cons]
    cases h : growNode m n s with
    | error e t =>
      rw [h] at hn
      rw [Outcome.bind_of_error h]
      exact hn
    | ok result t =>
      rw [h] at hn
      rw [Outcome.bind_of_ok h, Outcome.state_bind fun _ _ => rfl, ih]
      exact hn

namespace Plant

variable {origin : Vec}

section Stages

variable {σ : Type} [RandomSource σ]

/-- The sowing of a seed is safe from the empty stack on. -/
theorem SeedVisits.safe {grammar : Grammar} {params : GrowthParams} {letter : Char} {source : σ}
    {journal : Journal} {x : BuildStage} (h : SeedVisits grammar params letter
      ⟨⟨soil origin, source⟩, 1, 0, journal⟩ x) : x.Safe := by
  have hground := grounded_soil origin source 1 journal
  cases h with
  | reading hvisits => exact (hvisits.safe hground).1
  | @named stack t r m u id hread hnote hid =>
    obtain ⟨hsite, hnext⟩ := (Turtle.step_of_read hread).site_of_none
    have hsafe : (r.stage [ground] false).Safe := by
      rw [← Build.note_eq_ok.mp hnote]
      exact hground.safe.congr (congrArg (·.skeleton.size) hsite) hnext
    exact (hsafe.named hid).1
  | done hseed =>
    have hroot := rooted_of_seeded (seeded_of_seed hseed)
    exact ⟨hroot.handle_inside, hroot.size_le⟩

/-- Compaction keeps the row rooted and leaves it one joint for each node and the root. -/
theorem rooted_of_compact {p : Plant} (hp : Reachable origin p) {s : Surroundings σ}
    {next : Replacement} {m : Nursery σ} {c : Compacted}
    (h : Expansion.replaceAll p.grammar p.params p.nodes
      ⟨⟨p.skeleton, s.source⟩, p.age, p.nextId, s.journal⟩ = .ok next m)
    (hc : m.site.skeleton.compact next.nodes = .ok c) :
    (∃ root, Rooted origin root c.nodes c.skeleton m.nextId) ∧
      c.skeleton.size = next.nodes.length + 1 := by
  obtain ⟨⟨root, hroot⟩, hne, -⟩ := hp.sound
  have hrow := Expansion.rooted_of_replaceAll h hroot
  obtain ⟨ρ, hnodes, hrenamed, -⟩ :=
    Skeleton.compact_eq_ok (Expansion.size_le_of_replaceAll h hroot) hc
  have hrooted := hrow.renamed (Expansion.nodes_ne_nil_of_replaceAll h hroot hne) hrenamed
  rw [hnodes]
  refine ⟨⟨ρ root, hrooted⟩, ?_⟩
  rw [hrooted.size_eq (hrow.covers_renamed hrenamed), List.length_map]

end Stages

/-- All stages of plants are safe. -/
theorem Visits.safe {x : BuildStage} (h : Visits origin x) : x.Safe := by
  cases h with
  | bare => exact ⟨fun _ hj => absurd hj List.not_mem_nil, Nat.le_refl 1⟩
  | sowing hvisits => exact hvisits.safe
  | standing hp =>
    obtain ⟨root, hroot⟩ := hp.sound.rooted
    exact ⟨hroot.handle_inside, hroot.size_le⟩
  | @replacing σ _ p s x hp hvisits =>
    obtain ⟨root, hroot⟩ := hp.sound.rooted
    have hstart : Rooted origin root ([] ++ p.nodes) p.skeleton p.nextId := hroot
    exact (hvisits.safe hstart).1
  | compacted hp hnext hc =>
    obtain ⟨⟨root, hroot⟩, -⟩ := rooted_of_compact hp hnext hc
    exact ⟨hroot.handle_inside, hroot.size_le⟩
  | @growing σ _ p before after time noise source hp hnodes =>
    obtain ⟨root, hroot⟩ := hp.sound.rooted
    have hsize := OnSite.size_state_mapM_growNode ⟨p.params, p.age, time, noise⟩ before
      (⟨p.skeleton, source⟩ : Site σ)
    exact ⟨fun j hj => (hroot.handle_inside j hj).trans_eq hsize.symm,
      hsize.trans_le hroot.size_le⟩

end Plant

/-! ## Exact handles -/

/-- What safety of a stage means for the handles that are given out there. -/
structure BuildStage.Exact (x : BuildStage) : Prop where
  size_le : x.skeleton.size ≤ x.nextId.toNat + 1
  /-- Handles in use are those of joints. -/
  inside : ∀ j ∈ x.held, j.index < x.skeleton.size
  /-- The joint that is about to be made gets its place as handle, which nothing holds yet. -/
  added : x.pending = true → ∀ {σ : Type} (j : Joint) (source : σ), ∃ new site,
    OnSite.addJoint j ⟨x.skeleton, source⟩ = .ok new site ∧ new.index = x.skeleton.size ∧
      new ∉ x.held ∧ site.skeleton.size ≤ x.nextId.toNat + 1
  /-- Where the next place is no word, no node can be made for want of an identity. -/
  exhausted : x.pending = false → UInt32.size ≤ x.skeleton.size →
    ∀ {σ : Type} [RandomSource σ] (s : Nursery σ), s.At x →
      (∀ params letter stack, Turtle.growNode params letter stack s = .error .addOverflow s) ∧
      ∀ grammar frame, Expansion.bridge grammar frame s = .error .addOverflow s

/-- With the last word as the next identity, no more identity is given out. -/
theorem Build.freshId_of_last {σ : Type} {s : Nursery σ} (h : UInt32.size ≤ s.nextId.toNat + 1) :
    freshId s = .error .addOverflow s := by
  have hadd : addWord s.nextId 1 = .error .addOverflow := if_neg (Nat.not_lt.mpr h)
  exact freshId_eq_error.mpr ⟨hadd, rfl⟩

/-- What is safe is exact: the counts fit, and the handles that are held lie inside. -/
theorem BuildStage.Safe.exact {x : BuildStage} (h : x.Safe) : x.Exact where
  size_le := (Nat.le_add_right ..).trans h.size_le
  inside := h.inside
  added := by
    intro hpending σ j source
    -- the identity taken for the joint is a word, and the place of the joint is no greater
    have hsize := h.size_le
    rw [hpending, Bool.toNat_true] at hsize
    have hlt : x.nextId.toNat < UInt32.size := x.nextId.toNat_lt
    have hindex : x.skeleton.nextId.index = x.skeleton.size := Skeleton.index_nextId (by omega)
    refine ⟨x.skeleton.nextId, ⟨x.skeleton.push j, source⟩, rfl, hindex, fun hheld => ?_, ?_⟩
    · exact Nat.ne_of_lt (h.inside _ hheld) hindex
    · show (x.skeleton.push j).size ≤ _
      rw [Skeleton.size_push]
      exact hsize
  exhausted := by
    intro hpending hfull σ _ s hs
    have hsize := h.size_le
    rw [hpending, Bool.toNat_false, ← hs.nextId_eq] at hsize
    have hfail : Build.freshId s = .error .addOverflow s :=
      Build.freshId_of_last (hfull.trans hsize)
    exact ⟨fun params letter stack => Outcome.bind_of_error hfail,
      fun grammar frame => Outcome.bind_of_error hfail⟩

/-! ## Compaction -/

namespace Renumbering

/-- The name that a handle is given is the one it has, or the number of joints kept so far; that
number is a word, and so is the next one, and no other handle has that name. -/
inductive Named (r : Renumbering) (id new : JointId) : Renumbering → Prop
  | known : r.name? id = some new → Named r id new r
  | next {t : Renumbering} : r.name? id = none → new.index = r.kept.size →
      t.kept.size = r.kept.size + 1 → t.kept.size < UInt32.size →
      (∀ i other, r.name? i = some other → other ≠ new) → Named r id new t

/-- Every handle that a compaction gives to the nodes of a row is exact. -/
def Names (k : Skeleton) (row : List Node) : Prop :=
  ∀ before n after, row = before ++ n :: after → ∃ names r entry r₁ exit r₂,
    (before.mapM (renameNode k)) (.start k) = .ok names r ∧
    rename k n.entry r = .ok entry r₁ ∧ Named r n.entry entry r₁ ∧
    rename k n.exit r₁ = .ok exit r₂ ∧ Named r₁ n.exit exit r₂

variable {k : Skeleton} {r t : Renumbering}

/-- A compaction only ever adds to the joints that it keeps. -/
theorem kept_le_of_rename {id new : JointId} (h : rename k id r = .ok new t) :
    r.kept.size ≤ t.kept.size := by
  rcases rename_eq_ok h with ⟨-, rfl⟩ | ⟨j, -, -, -, rfl⟩
  · exact Nat.le_refl _
  · exact (Nat.le_succ _).trans_eq (Array.size_push _).symm

theorem kept_le_of_mapM {row row' : List Node} (h : (row.mapM (renameNode k)) r = .ok row' t) :
    r.kept.size ≤ t.kept.size := by
  induction row generalizing r row' with
  | nil => rw [(Outcome.mapM_nil_eq_ok.mp h).2]
  | cons n row ih =>
    obtain ⟨n', u, rest, hn, hrest, -⟩ := Outcome.mapM_cons_eq_ok.mp h
    simp only [renameNode, Outcome.bind_eq_ok, Outcome.pure_eq_ok] at hn
    obtain ⟨entry, u₁, hentry, exit, u₂, hexit, -, rfl⟩ := hn
    exact ((kept_le_of_rename hentry).trans (kept_le_of_rename hexit)).trans (ih hrest)

/-- A renamed handle keeps its name, and the joint at that name is the one it had. -/
theorem named_of_rename {id new : JointId} (hf : Faithful k r) (hlt : t.kept.size < UInt32.size)
    (h : rename k id r = .ok new t) : Named r id new t := by
  rcases rename_eq_ok h with ⟨hnew, rfl⟩ | ⟨j, hnone, -, rfl, rfl⟩
  · exact .known hnew
  · have hsize : (r.addName id ⟨.ofNat r.kept.size⟩ j).kept.size = r.kept.size + 1 :=
      Array.size_push _
    have hindex : (⟨.ofNat r.kept.size⟩ : JointId).index = r.kept.size :=
      JointId.index_ofNat (by omega)
    refine .next (by simp [name?, hnone]) hindex hsize hlt ?_
    rintro i other hi rfl
    exact Nat.ne_of_lt (hf.inside hi) hindex

end Renumbering

namespace Plant

variable {origin : Vec} {p : Plant}

section Compaction

variable {σ : Type} [RandomSource σ] {s : Surroundings σ} {next : Replacement} {m : Nursery σ}

/-- A compaction keeps fewer joints than there are words. -/
theorem size_lt_of_compact {c : Compacted} (hp : Reachable origin p)
    (hlt : p.skeleton.size < UInt32.size)
    (h : Expansion.replaceAll p.grammar p.params p.nodes
      ⟨⟨p.skeleton, s.source⟩, p.age, p.nextId, s.journal⟩ = .ok next m)
    (hc : m.site.skeleton.compact next.nodes = .ok c) : c.skeleton.size < UInt32.size := by
  obtain ⟨⟨root, hroot⟩, hkept⟩ := rooted_of_compact hp h hc
  obtain ⟨ground, hground⟩ := hp.sound.rooted
  obtain ⟨hmade, hcount⟩ := Expansion.size_of_replaceAll h
  have hbefore : p.skeleton.size = p.nodes.length + 1 := hp.size_eq
  rw [hkept]
  by_cases hnone : next.tally.replaced = 0
  · -- the row is the one before the pass
    rw [hcount, List.countP_eq_zero] at hnone
    obtain ⟨parts, hparts, hnodes, -⟩ := Expansion.replaceAll_eq_ok h
    have hsame := (Expansion.pass_of_mapM hparts).flatMap_of_none fun n hn => by
      simpa using hnone n hn
    rw [hnodes, hsame, ← hbefore]
    exact hlt
  · -- a joint is left out, and without it there are at most as many as identities
    have hsize := Expansion.size_le_of_replaceAll h hground
    dsimp only at hmade
    omega

/-- A plant has fewer joints than there are words. -/
theorem Reachable.size_lt (hp : Reachable origin p) : p.skeleton.size < UInt32.size := by
  induction hp with
  | sprout h =>
    -- the root and the exit of the first node
    obtain ⟨node, m, hseed, rfl, -⟩ := sprout_eq_ok h
    have hsize : m.site.skeleton.size = 1 + 1 := hseed.attached.1.size_eq
    show m.site.skeleton.size < UInt32.size
    rw [hsize]
    decide
  | generate hp h ih =>
    obtain ⟨next, m, c, generation, hnext, hc, -, rfl, -, -⟩ := generate_eq_ok h
    exact size_lt_of_compact hp ih hnext hc
  | tick hp h ih =>
    obtain ⟨nodes, k, source, hgrow, rfl, -⟩ := tick_eq_ok h
    exact (OnSite.size_of_growAll hgrow).trans_lt ih

open Renumbering in
/-- After the pass over its row, a plant that can be reached can be compacted without a wrong name.
-/
theorem names_of_replaceAll (hp : Reachable origin p)
    (h : Expansion.replaceAll p.grammar p.params p.nodes
      ⟨⟨p.skeleton, s.source⟩, p.age, p.nextId, s.journal⟩ = .ok next m) :
    Names m.site.skeleton next.nodes := by
  intro before n after hrow
  obtain ⟨root, hroot⟩ := hp.sound.rooted
  have hwords := Expansion.size_le_of_replaceAll h hroot
  obtain ⟨c, hc⟩ := (Expansion.rooted_of_replaceAll h hroot).exists_compact_eq_ok
  have hlt := size_lt_of_compact hp hp.size_lt h hc
  -- the renumberings on the way keep no more joints than the last one
  unfold Skeleton.compact at hc
  split at hc
  · rename_i nodes t hnodes
    cases hc
    rw [hrow, Outcome.mapM_append_eq_ok] at hnodes
    obtain ⟨names, r, rest, hbefore, hrest, -⟩ := hnodes
    obtain ⟨n', u, names', hn, hafter, -⟩ := Outcome.mapM_cons_eq_ok.mp hrest
    simp only [renameNode, Outcome.bind_eq_ok, Outcome.pure_eq_ok] at hn
    obtain ⟨entry, r₁, hentry, exit, r₂, hexit, -, rfl⟩ := hn
    have hf := (mapM_renameNode_eq_ok (faithful_start _) hwords hbefore).1
    have hf₁ := (met_of_rename hf hwords hentry).1
    have hlt₂ := (kept_le_of_mapM hafter).trans_lt hlt
    have hlt₁ := (kept_le_of_rename hexit).trans_lt hlt₂
    exact ⟨names, r, entry, r₁, exit, r₂, hbefore, hentry, named_of_rename hf hlt₁ hentry, hexit,
      named_of_rename hf₁ hlt₂ hexit⟩
  · cases hc

end Compaction

/-- No handle wraps before identities run out. At every stage of every plant, inside a generation as
well, there is at most one joint more than identities are given away. A joint that is made gets its
place as handle, which nothing holds; where its place would be no word, the node gets no identity.
Sowing, a pass and a frame stop at such a stage, with a result or with a fault. All handles given
in the compaction that follows a pass are exact as well. -/
theorem handles_exact (origin : Vec) :
    (∀ x, Visits origin x → x.Exact) ∧
    (∀ (σ : Type) [RandomSource σ] rules params letter (s : Surroundings σ), ∃ x, Visits origin x ∧
      (Outcome.state (seed (Grammar.ofRules rules) params letter ground
        ⟨⟨soil origin, s.source⟩, 1, 0, s.journal⟩)).At x) ∧
    ∀ p, Reachable origin p → ∀ (σ : Type) [RandomSource σ] (s : Surroundings σ),
      let pass := Expansion.replaceAll p.grammar p.params p.nodes
        ⟨⟨p.skeleton, s.source⟩, p.age, p.nextId, s.journal⟩
      (∃ x, Visits origin x ∧ (Outcome.state pass).At x) ∧
      (∀ next m, pass = .ok next m → Renumbering.Names m.site.skeleton next.nodes) ∧
      ∀ time noise, ∃ x, Visits origin x ∧ x.nextId = p.nextId ∧
        (Outcome.state (OnSite.growAll ⟨p.params, p.age, time, noise⟩ p.nodes
          ⟨p.skeleton, s.source⟩)).skeleton = x.skeleton := by
  refine ⟨fun x hx => hx.safe.exact, ?_, ?_⟩
  · intro σ _ rules params letter s
    exact exists_visits_of_seed rules params letter s
  · intro p hp σ _ s
    exact ⟨exists_visits_of_replaceAll hp s, fun next m h => names_of_replaceAll hp h,
      fun time noise => exists_visits_of_growAll hp time noise s.source⟩

/-- The handles of the tangle, which makes joints in its next generation and leaves some out. -/
theorem handles_exact_tangle : ∃ p t next m,
    tangle ⟨⟨#[0], 0⟩, #[]⟩ = .ok p t ∧ p.nodes ≠ [] ∧
    Expansion.replaceAll p.grammar p.params p.nodes
      ⟨⟨p.skeleton, t.source⟩, p.age, p.nextId, t.journal⟩ = .ok next m ∧ next.nodes ≠ [] ∧
    (∃ x, Visits ⟨0, 0⟩ x ∧ x.pending = true ∧ x.Exact) ∧
    (∃ x, Visits ⟨0, 0⟩ x ∧ m.At x ∧ x.Exact) ∧
    Renumbering.Names m.site.skeleton next.nodes := by
  obtain ⟨p, p', tally, t, t', hp, hgenerate, hcontains⟩ := exists_generate_tangle
  have hreach := reachable_of_tangle hp
  obtain ⟨⟨root, hroot⟩, hne, -⟩ := hreach.sound
  obtain ⟨next, m, c, generation, hnext, -, -, -, -, -⟩ := generate_eq_ok hgenerate
  have hne' := Expansion.nodes_ne_nil_of_replaceAll hnext hroot hne
  -- the first node has a rule, so a joint is made for its expansion
  have hrule : ∃ n ∈ p.nodes, (Expansion.rule? p.grammar n).isSome := by
    obtain ⟨n, rest, hnodes⟩ := List.exists_cons_of_ne_nil hne
    have hn : n ∈ p.nodes := hnodes ▸ List.mem_cons_self
    refine ⟨n, hn, ?_⟩
    rw [hreach.rule?_isSome hn, (hreach.registered.nodes n hn).hasRule_eq]
    exact hcontains n hn
  obtain ⟨parts, hparts, -, -⟩ := Expansion.replaceAll_eq_ok hnext
  obtain ⟨x, hx, hpending⟩ := Expansion.exists_pending_of_mapM hparts hrule
  obtain ⟨hexact, -, hpass⟩ := handles_exact ⟨0, 0⟩
  obtain ⟨⟨y, hy, hat⟩, hnames, -⟩ := hpass p hreach Reel t
  rw [hnext] at hat
  exact ⟨p, t, next, m, hp, hne, hnext, hne', ⟨x, .replacing hreach hx, hpending,
    hexact x (.replacing hreach hx)⟩, ⟨y, hy, hat, hexact y hy⟩, hnames next m hnext⟩

end Plant

end PlantGrowth
