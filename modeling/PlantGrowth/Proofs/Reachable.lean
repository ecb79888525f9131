import PlantGrowth.Proofs.Compaction
import PlantGrowth.Proofs.Frame
import PlantGrowth.Chance.Stream

/-!
# Reachable plants

A plant is reachable if it was sown at its origin and then went through any sequence of
generations and frames, each in surroundings of its own. `Plant.Sound` is what every one of
them keeps: the nodes are a rooted tree, there is at least one, and at every exit joint growth
passes as the entry joint and the node itself say. `Plant.Reachable.sound` is the run lemma;
its steps are `sound_of_sprout`, `Sound.generate` and `Sound.tick`.

`Plant.Reachable.exists_isTree` spells the tree out in terms of handles: a root that no node
ends at and that never moves, exits of which no two agree, and nodes in depth-first order.
-/

set_option autoImplicit false

namespace PlantGrowth.Plant

/-! ## Steps of a plant -/

section Steps

variable {σ : Type} [RandomSource σ]

/-- The first node of a plant, grown by the turtle or put there for a letter that grows none. -/
inductive Seeded (grammar : Grammar) (params : GrowthParams) (letter : Char) (root : JointId)
    (s : Nursery σ) : Node → Nursery σ → Prop
  | grown {node : Node} {stack : Stack} {t : Nursery σ} :
      (Action.ofLetter letter).makesNode = true →
      Turtle.Grew params (Grammar.letter grammar letter) (.ofFrame ⟨root, 0, 0⟩) s node stack t →
      Seeded grammar params letter root s node t
  | inert {node : Node} {t : Nursery σ} : (Action.ofLetter letter).makesNode = false →
      Attached s.site.skeleton s.nextId [node] t.site.skeleton t.nextId →
      node.letter = letter → node.entry = root → node.rotation = 0 → node.depth = 0 →
      node.hasRule = grammar.contains letter → node.kind = .placeholder →
      Seeded grammar params letter root s node t

/-- A seed that was sown is one of the two sorts of seeds. -/
theorem seeded_of_seed {grammar : Grammar} {params : GrowthParams} {letter : Char}
    {root : JointId} {s t : Nursery σ} {node : Node}
    (h : seed grammar params letter root s = .ok node t) :
    Seeded grammar params letter root s node t := by
  simp only [seed, Outcome.bind_eq_ok] at h
  obtain ⟨⟨node?, stack⟩, r, hread, h⟩ := h
  have hstep := Turtle.step_of_read hread
  cases node? with
  | some n =>
    simp only [Outcome.pure_eq_ok] at h
    obtain ⟨rfl, rfl⟩ := h
    cases hstep with
    | grow hmakes hgrew => exact .grown hmakes hgrew
  | none =>
    simp only [Outcome.bind_eq_ok, Build.note_eq_ok, Build.freshId_eq_ok, Build.onSite_eq_ok,
      OnSite.attach_eq_ok] at h
    obtain ⟨u, r₁, rfl, id, r₂, ⟨next, hnext, rfl, rfl⟩, site, ⟨e, he, rfl, rfl⟩, rfl⟩ := h
    obtain ⟨hsite, hid⟩ := hstep.site_of_none
    have hmakes : (Action.ofLetter letter).makesNode = false := by
      have hletter : (Grammar.letter grammar letter).action = Action.ofLetter letter := rfl
      cases hstep with
      | turnLeft ha => rw [← hletter, ha]; rfl
      | turnRight ha => rw [← hletter, ha]; rfl
      | save ha _ => rw [← hletter, ha]; rfl
      | restore ha _ _ _ _ => rw [← hletter, ha]; rfl
    refine .inert hmakes ?_ rfl rfl rfl rfl rfl rfl
    rw [← hsite, ← hid]
    exact .cons he rfl rfl hnext (.nil _ _)

/-- Both sorts of seeds are attached to the root. -/
theorem Seeded.attached {grammar : Grammar} {params : GrowthParams} {letter : Char}
    {root : JointId} {s t : Nursery σ} {node : Node}
    (h : Seeded grammar params letter root s node t) :
    Attached s.site.skeleton s.nextId [node] t.site.skeleton t.nextId ∧ node.entry = root := by
  cases h with
  | grown _ hgrew => exact ⟨hgrew.attached, hgrew.entry_eq⟩
  | inert _ hatt _ hentry _ _ _ _ => exact ⟨hatt, hentry⟩

/-- Handle of the joint at which a plant is sown. -/
def ground : JointId := Skeleton.empty.nextId

/-- Skeleton on which a plant is sown. -/
def soil (origin : Vec) : Skeleton := Skeleton.empty.push (.root origin)

/-- A plant starts with one node on the ground, in the age and with the identities that its seed
leaves. -/
theorem sprout_eq_ok {letter : Char} {rules : Rules String} {params : GrowthParams}
    {origin : Vec} {s t : Surroundings σ} {p : Plant}
    (h : sprout letter rules params origin s = .ok p t) :
    ∃ node m, Seeded (Grammar.ofRules rules) params letter ground
        ⟨⟨soil origin, s.source⟩, 1, 0, s.journal⟩ node m ∧
      p = ⟨params, Grammar.ofRules rules, [node], m.site.skeleton, m.age, 0, m.nextId⟩ ∧
      t.source = m.site.source := by
  simp only [sprout, Outcome.bind_eq_ok, Outcome.pure_eq_ok, Garden.note_eq_ok] at h
  obtain ⟨⟨node, nursery⟩, r, hbuild, u, r', rfl, rfl, rfl⟩ := h
  obtain ⟨m, hseed, rfl, rfl⟩ := Garden.build_eq_ok.mp hbuild
  exact ⟨node, m, seeded_of_seed hseed, rfl, rfl⟩

/-- A generation is a pass over the row, then a compaction, and then one more generation is counted.
-/
theorem generate_eq_ok {p p' : Plant} {tally : Tally} {s t : Surroundings σ}
    (h : p.generate s = .ok (p', tally) t) :
    ∃ next m c generation,
      Expansion.replaceAll p.grammar p.params p.nodes
        ⟨⟨p.skeleton, s.source⟩, p.age, p.nextId, s.journal⟩ = .ok next m ∧
      m.site.skeleton.compact next.nodes = .ok c ∧ addWord p.generation 1 = .ok generation ∧
      p' = ⟨p.params, p.grammar, c.nodes, c.skeleton, m.age, generation, m.nextId⟩ ∧
      tally = next.tally ∧ t.source = m.site.source := by
  simp only [generate, Outcome.bind_eq_ok, Outcome.pure_eq_ok, Garden.note_eq_ok,
    Garden.check_eq_ok, Prod.mk.injEq] at h
  obtain ⟨⟨next, nursery⟩, r, hbuild, c, r₁, ⟨hcompact, rfl⟩, generation, r₂,
    ⟨hgeneration, rfl⟩, u, r₃, rfl, ⟨rfl, rfl⟩, rfl⟩ := h
  obtain ⟨m, hnext, rfl, rfl⟩ := Garden.build_eq_ok.mp hbuild
  exact ⟨next, m, c, generation, hnext, hcompact, hgeneration, rfl, rfl, rfl⟩

/-- A frame changes the nodes, the skeleton and the random source. -/
theorem tick_eq_ok {p p' : Plant} {time : Scalar} {noise : Noise} {marks : List Mark}
    {s t : Surroundings σ} (h : p.tick time noise s = .ok (p', marks) t) :
    ∃ nodes k source,
      OnSite.growAll ⟨p.params, p.age, time, noise⟩ p.nodes ⟨p.skeleton, s.source⟩ =
        .ok (nodes, marks) ⟨k, source⟩ ∧
      p' = { p with nodes, skeleton := k } ∧ t = { s with source } := by
  simp only [tick, Outcome.bind_eq_ok, Outcome.pure_eq_ok, Prod.mk.injEq] at h
  obtain ⟨⟨⟨nodes, marks'⟩, k⟩, r, hframe, ⟨rfl, rfl⟩, rfl⟩ := h
  obtain ⟨source, hgrow, rfl⟩ := Garden.onSkeleton_eq_ok.mp hframe
  exact ⟨nodes, k, source, hgrow, rfl, rfl⟩

end Steps

/-- Plants that were sown at an origin and went through any generations and frames. -/
inductive Reachable (origin : Vec) : Plant → Prop
  | sprout {σ : Type} [RandomSource σ] {letter : Char} {rules : Rules String}
      {params : GrowthParams} {s t : Surroundings σ} {p : Plant} :
      Plant.sprout letter rules params origin s = .ok p t → Reachable origin p
  | generate {σ : Type} [RandomSource σ] {p p' : Plant} {tally : Tally} {s t : Surroundings σ} :
      Reachable origin p → p.generate s = .ok (p', tally) t → Reachable origin p'
  | tick {σ : Type} [RandomSource σ] {p p' : Plant} {time : Scalar} {noise : Noise}
      {marks : List Mark} {s t : Surroundings σ} :
      Reachable origin p → p.tick time noise s = .ok (p', marks) t → Reachable origin p'

/-! ## What every plant keeps -/

/-- The nodes are a rooted tree, and growth passes at every exit joint as it should. -/
structure Sound (origin : Vec) (p : Plant) : Prop where
  rooted : ∃ root, Rooted origin root p.nodes p.skeleton p.nextId
  ne_nil : p.nodes ≠ []
  flags : ∀ n ∈ p.nodes, FlagsInSync p.skeleton n

section Sound

variable {σ : Type} [RandomSource σ] {origin : Vec}

theorem rooted_of_seeded {grammar : Grammar} {params : GrowthParams} {letter : Char}
    {source : σ} {age : UInt32} {journal : Journal} {node : Node} {m : Nursery σ}
    (h : Seeded grammar params letter ground ⟨⟨soil origin, source⟩, age, 0, journal⟩ node m) :
    Rooted origin ground [node] m.site.skeleton m.nextId := by
  obtain ⟨hatt, hentry⟩ := h.attached
  have hbound : (soil origin).size ≤ (0 : UInt32).toNat + 1 := Nat.le_refl 1
  have hground : ground.index < (soil origin).size := Nat.lt_succ_self 0
  obtain ⟨hlow, hhigh⟩ := hatt.size_le_exit hbound (n := node) List.mem_cons_self
  refine {
    distinct := ?_, preorder := ⟨by simp [hentry], trivial⟩, inside := ?_
    size_le := hatt.size_le hbound, ground := ?_ }
  · refine List.nodup_cons.mpr ⟨?_, List.nodup_singleton _⟩
    rw [List.map_singleton, List.mem_singleton]
    intro he
    rw [← he] at hlow
    exact absurd hground (Nat.not_lt.mpr hlow)
  · intro j hj
    rw [List.map_singleton, List.mem_cons, List.mem_singleton] at hj
    rcases hj with rfl | rfl
    · exact Nat.lt_of_lt_of_le hground (Nat.le_of_lt (Nat.lt_of_le_of_lt hlow hhigh))
    · exact hhigh
  · rw [hatt.get?_of_lt hground]
    rfl

/-- A seed stands on the ground, and its plant is sound. -/
theorem sound_of_sprout {letter : Char} {rules : Rules String} {params : GrowthParams}
    {s t : Surroundings σ} {p : Plant} (h : sprout letter rules params origin s = .ok p t) :
    Sound origin p := by
  obtain ⟨node, m, hseed, rfl, -⟩ := sprout_eq_ok h
  refine ⟨⟨ground, rooted_of_seeded hseed⟩, List.cons_ne_nil _ _, ?_⟩
  intro n hn
  have hbound : (soil origin).size ≤ (0 : UInt32).toNat + 1 := Nat.le_refl 1
  exact (hseed.attached.1.inSync hbound hn).flags

/-- A generation of a rooted plant is a pass over its nodes, which stay rooted and end in line with
their entries, and then a renaming of the handles in use. -/
theorem exists_renamed_of_generate {root : JointId} {p p' : Plant} {tally : Tally}
    {s t : Surroundings σ} (hroot : Rooted origin root p.nodes p.skeleton p.nextId)
    (h : p.generate s = .ok (p', tally) t) :
    ∃ parts m ρ, (p.nodes.mapM (Expansion.replace p.grammar p.params))
        ⟨⟨p.skeleton, s.source⟩, p.age, p.nextId, s.journal⟩ = .ok parts m ∧
      Rooted origin root (parts.flatMap (·.nodes)) m.site.skeleton m.nextId ∧
      (∀ n ∈ parts.flatMap (·.nodes), InSync m.site.skeleton n) ∧
      p'.nodes = (parts.flatMap (·.nodes)).map (Node.rename ρ) ∧
      Renamed ρ (Row.handles (parts.flatMap (·.nodes))) m.site.skeleton p'.skeleton ∧
      p'.nextId = m.nextId ∧ p'.params = p.params ∧ p'.grammar = p.grammar := by
  obtain ⟨next, m, c, generation, hnext, hcompact, -, rfl, -, -⟩ := generate_eq_ok h
  obtain ⟨parts, hparts, hnodes, -⟩ := Expansion.replaceAll_eq_ok hnext
  have hstart : Rooted origin root ([] ++ p.nodes) p.skeleton p.nextId := hroot
  obtain ⟨hrooted, hsync⟩ := Expansion.rooted_of_mapM hparts hstart (by simp)
  rw [List.nil_append] at hrooted hsync
  have hsize : m.site.skeleton.size ≤ UInt32.size := hrooted.size_le.trans m.nextId.toNat_lt
  obtain ⟨ρ, hρ, hrenamed, -⟩ := Skeleton.compact_eq_ok hsize hcompact
  rw [hnodes] at hρ hrenamed
  exact ⟨parts, m, ρ, hparts, hrooted, hsync, hρ, hrenamed, rfl, rfl, rfl⟩

/-- The plant after a generation is rooted, and every exit joint is in line with its entry. -/
theorem exists_pass_of_generate {root : JointId} {p p' : Plant} {tally : Tally}
    {s t : Surroundings σ} (hroot : Rooted origin root p.nodes p.skeleton p.nextId)
    (hne : p.nodes ≠ []) (h : p.generate s = .ok (p', tally) t) :
    ∃ parts m ρ, (p.nodes.mapM (Expansion.replace p.grammar p.params))
        ⟨⟨p.skeleton, s.source⟩, p.age, p.nextId, s.journal⟩ = .ok parts m ∧
      p'.nodes = (parts.flatMap (·.nodes)).map (Node.rename ρ) ∧ p'.nodes ≠ [] ∧
      Rooted origin (ρ root) p'.nodes p'.skeleton p'.nextId ∧
      (∀ n ∈ p'.nodes, InSync p'.skeleton n) ∧ p'.params = p.params ∧ p'.grammar = p.grammar := by
  obtain ⟨parts, m, ρ, hparts, hrooted, hsync, hnodes, hrenamed, hid, hparams, hgrammar⟩ :=
    exists_renamed_of_generate hroot h
  have hne' := Expansion.flatMap_nodes_ne_nil hparts hroot hne
  refine ⟨parts, m, ρ, hparts, hnodes, ?_, ?_, ?_, hparams, hgrammar⟩
  · rw [hnodes]
    simpa using hne'
  · rw [hnodes, hid]
    exact hrooted.renamed hne' hrenamed
  · intro n hn
    rw [hnodes] at hn
    obtain ⟨old, hold, rfl⟩ := List.mem_map.mp hn
    exact (hsync old hold).renamed hrenamed (Row.entry_mem_handles hold)
      (Row.exit_mem_handles hold)

namespace Sound

/-- A generation keeps the plant sound and leaves every exit joint in line with its entry. -/
theorem generate {p p' : Plant} {tally : Tally} {s t : Surroundings σ} (hp : Sound origin p)
    (h : p.generate s = .ok (p', tally) t) :
    Sound origin p' ∧ ∀ n ∈ p'.nodes, InSync p'.skeleton n := by
  obtain ⟨root, hroot⟩ := hp.rooted
  obtain ⟨parts, m, ρ, -, -, hne, hrooted, hsync, -, -⟩ :=
    exists_pass_of_generate hroot hp.ne_nil h
  exact ⟨⟨⟨ρ root, hrooted⟩, hne, fun n hn => (hsync n hn).flags⟩, hsync⟩

/-- A frame keeps a plant sound. -/
theorem tick {p p' : Plant} {time : Scalar} {noise : Noise} {marks : List Mark}
    {s t : Surroundings σ} (hp : Sound origin p) (h : p.tick time noise s = .ok (p', marks) t) :
    Sound origin p' := by
  obtain ⟨root, hroot⟩ := hp.rooted
  obtain ⟨nodes, k, source, hgrow, rfl, -⟩ := tick_eq_ok h
  obtain ⟨results, rfl, -, hshown, hrooted⟩ := shown_of_growAll hgrow hroot
  refine ⟨⟨root, hrooted⟩, ?_, ?_⟩
  · have hlength := hshown.length_eq
    have hne := hp.ne_nil
    intro hnil
    rw [List.map_eq_nil_iff.mp hnil] at hlength
    exact hne (List.length_eq_zero_iff.mp hlength)
  · exact flags_of_shown hshown

end Sound

/-- Sowing, generations and frames keep all that soundness asks for. -/
theorem Reachable.sound {p : Plant} (h : Reachable origin p) : Sound origin p := by
  induction h with
  | sprout h => exact sound_of_sprout h
  | generate _ h ih => exact (ih.generate h).1
  | tick _ h ih => exact ih.tick h

end Sound

/-! ## The tree of a reachable plant -/

/-- The nodes of the plant are one tree in depth-first order below the root joint. -/
structure IsTree (origin : Vec) (p : Plant) (root : JointId) : Prop where
  first : ∃ n rest, p.nodes = n :: rest ∧ n.entry = root
  exit_ne_root : ∀ n ∈ p.nodes, n.exit ≠ root
  /-- The root joint is as it was when the plant was sown. -/
  root_eq : p.skeleton.get? root = some (.root origin)
  nodup_exits : (p.nodes.map (·.exit)).Nodup
  inside : ∀ n ∈ p.nodes, n.entry.index < p.skeleton.size ∧ n.exit.index < p.skeleton.size
  /-- A node starts at the end of the node before it, at the end of an ancestor of that one, or
  at the root. -/
  depthFirst : ∀ before m n after, p.nodes = before ++ m :: n :: after →
    n.entry = m.exit ∨ (∃ a, Row.Above p.nodes a m ∧ n.entry = a.exit) ∨ n.entry = root

/-- The nodes of a plant that can be reached are a tree: each exit has one joint, each entry is the
root or an exit further up, and the row is in depth-first order. -/
theorem Reachable.exists_isTree {origin : Vec} {p : Plant} (h : Reachable origin p) :
    ∃ root, IsTree origin p root := by
  obtain ⟨⟨root, hroot⟩, hne, -⟩ := h.sound
  obtain ⟨n, rest, hnodes⟩ := List.exists_cons_of_ne_nil hne
  refine ⟨root, ?_⟩
  refine {
    first := ⟨n, rest, hnodes, ?_⟩
    exit_ne_root := fun n hn => hroot.distinct.exit_ne_root hn
    root_eq := hroot.ground
    nodup_exits := (List.nodup_cons.mp hroot.distinct).2
    inside := fun n hn => ⟨hroot.entry_inside hn, hroot.exit_inside hn⟩
    depthFirst := ?_ }
  · have hpre := hroot.preorder
    rw [hnodes] at hpre
    exact List.mem_singleton.mp hpre.1
  · intro before m n after hrow
    have hsplit : p.nodes = (before ++ [m]) ++ n :: after := by simp [hrow]
    have hpre := hroot.preorder
    rw [hsplit, Row.IsPreorder.append_iff] at hpre
    exact Row.mem_trail_concat hroot.distinct hroot.preorder hrow hpre.2.1

/-- A plant that has branched once and has grown for one frame. -/
def sapling : Garden Reel Plant := do
  let p ← sprout 'F' (Rules.empty.insert 'F' (.fixed "F[+F]X")) {} ⟨0, 0⟩
  let (p, _) ← p.generate
  let (p, _) ← p.tick 0 fun _ _ _ => .ok 0
  return p

theorem reachable_of_sapling {s t : Surroundings Reel} {p : Plant} (h : sapling s = .ok p t) :
    Reachable ⟨0, 0⟩ p := by
  simp only [sapling, Outcome.bind_eq_ok, Outcome.pure_eq_ok] at h
  obtain ⟨p₀, r₀, hsprout, ⟨p₁, tally⟩, r₁, hgenerate, ⟨p₂, marks⟩, r₂, htick, rfl, rfl⟩ := h
  exact .tick (.generate (.sprout hsprout) hgenerate) htick

theorem sapling_eq_ok : ∃ p t, sapling ⟨⟨#[0], 0⟩, #[]⟩ = .ok p t := by
  have hok : Outcome.isOk (fun _ => true) (sapling ⟨⟨#[0], 0⟩, #[]⟩) = true := by decide +kernel
  obtain ⟨p, t, h, -⟩ := Outcome.exists_of_isOk hok
  exact ⟨p, t, h⟩

/-- The sapling is such a tree. -/
theorem exists_isTree_sapling : ∃ p t, sapling ⟨⟨#[0], 0⟩, #[]⟩ = .ok p t ∧
    Reachable ⟨0, 0⟩ p ∧ ∃ root, IsTree ⟨0, 0⟩ p root := by
  obtain ⟨p, t, h⟩ := sapling_eq_ok
  exact ⟨p, t, h, reachable_of_sapling h, (reachable_of_sapling h).exists_isTree⟩

end PlantGrowth.Plant
