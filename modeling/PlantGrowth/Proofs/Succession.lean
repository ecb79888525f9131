import PlantGrowth.Proofs.Register

/-!
# What becomes of a node in a generation

A generation puts nodes in the place of every node whose letter has a rule and carries the others
over. Whatever the texts of the grammar look like, nothing comes loose and nothing is attached
twice: what takes the place of a node (`Heirs`) hangs together below the entry of that node, and
exactly one node of the next generation, the last of the heirs, ends where the node ended
(`Plant.Expands`). So what started at the end of a node starts at the end of its last heir.
`Plant.Reachable.generate_heirs` says so of every generation of a reachable plant.
-/

set_option autoImplicit false

namespace PlantGrowth

/-- A node and what a generation has put in its place. -/
structure Heirs where
  old : Node
  nodes : List Node

/-- Every node of the run starts at a joint or at the exit of an earlier node of the run. -/
def Row.StartsAt (j : JointId) (run : List Node) : Prop :=
  ∀ before n after, run = before ++ n :: after → n.entry = j ∨ ∃ m ∈ before, n.entry = m.exit

theorem Row.IsPreorder.startsAt {j : JointId} {run : List Node} (h : IsPreorder [j] run) :
    StartsAt j run := by
  rintro before n after rfl
  rcases mem_trail (append_iff.mp h).2.1 with he | ⟨m, hm, he⟩
  · exact Or.inl (List.mem_singleton.mp he)
  · exact Or.inr ⟨m, hm, he.symm⟩

theorem Row.handles_subset {row more : List Node} (h : row ⊆ more) :
    handles row ⊆ handles more := by
  intro j hj
  obtain ⟨n, hn, hj⟩ := List.mem_flatMap.mp hj
  exact List.mem_flatMap.mpr ⟨n, h hn, hj⟩

namespace Expansion

variable {grammar : Grammar} {lo hi : UInt32} {old : Node} {nodes row : List Node}
  {parts : List Replacement} {ρ : JointId → JointId}

/-- The nodes that succeed a node use its handles. -/
theorem Succeeded.mem_handles (h : Succeeded grammar lo hi old nodes) :
    old.entry ∈ Row.handles nodes ∧ old.exit ∈ Row.handles nodes := by
  obtain ⟨front, last, rfl, hlast⟩ := h.last_exit
  refine ⟨Row.root_mem_handles h.preorder (by simp), ?_⟩
  rw [← hlast]
  exact Row.exit_mem_handles (by simp)

theorem Succeeded.exists_getLast? (h : Succeeded grammar lo hi old nodes) (ρ : JointId → JointId) :
    ∃ last ∈ (nodes.map (Node.rename ρ)).getLast?, last.exit = ρ old.exit := by
  obtain ⟨front, last, rfl, hlast⟩ := h.last_exit
  refine ⟨last.rename ρ, by simp, ?_⟩
  rw [← hlast]
  rfl

theorem Succeeded.entry_of_head? (h : Succeeded grammar lo hi old nodes) (ρ : JointId → JointId)
    {n : Node} (hn : n ∈ (nodes.map (Node.rename ρ)).head?) : n.entry = ρ old.entry := by
  rw [List.head?_map] at hn
  obtain ⟨m, hm, rfl⟩ := Option.map_eq_some_iff.mp hn
  obtain ⟨rest, rfl⟩ := List.head?_eq_some_iff.mp hm
  exact congrArg ρ (List.mem_singleton.mp h.preorder.1)

/-- What succeeds the nodes of a row, node by node and under new names. -/
theorem exists_heirs (h : List.Forall₂ (fun old part => Succeeded grammar lo hi old part.nodes)
    row parts) (ρ : JointId → JointId) :
    ∃ heirs : List Heirs, heirs.map (·.old) = row ∧
      (parts.flatMap (·.nodes)).map (Node.rename ρ) = heirs.flatMap (·.nodes) ∧
      ∀ x ∈ heirs, ∃ nodes, Succeeded grammar lo hi x.old nodes ∧
        nodes ⊆ parts.flatMap (·.nodes) ∧ x.nodes = nodes.map (Node.rename ρ) := by
  induction h with
  | nil => exact ⟨[], rfl, rfl, by simp⟩
  | @cons old part row parts hold _ ih =>
    obtain ⟨heirs, hrow, hnodes, hheirs⟩ := ih
    refine ⟨⟨old, part.nodes.map (Node.rename ρ)⟩ :: heirs, ?_, ?_, ?_⟩
    · rw [List.map_cons, hrow]
    · rw [List.flatMap_cons, List.flatMap_cons, List.map_append, hnodes]
    · rw [List.forall_mem_cons]
      refine ⟨⟨part.nodes, hold, by simp, rfl⟩, ?_⟩
      intro x hx
      obtain ⟨nodes, hs, hsub, heq⟩ := hheirs x hx
      exact ⟨nodes, hs, fun n hn => by simp [hsub hn], heq⟩

end Expansion

namespace Plant

/-- The heirs of a node that was expanded, under new names of the handles. -/
structure Expands (p p' : Plant) (ρ : JointId → JointId) (x : Heirs) : Prop where
  ne_nil : x.nodes ≠ []
  new : ∀ n ∈ x.nodes, ∀ m ∈ p.nodes, n.id ≠ m.id
  startsAt : Row.StartsAt (ρ x.old.entry) x.nodes
  /-- The last heir ends where the node ended, -/
  last_exit : ∀ last ∈ x.nodes.getLast?, last.exit = ρ x.old.exit
  /-- and it is the only node that does. -/
  exit_once : (p'.nodes.map (·.exit)).count (ρ x.old.exit) = 1

section Generate

variable {σ : Type} [RandomSource σ] {origin : Vec} {p p' : Plant}

theorem Reachable.expands {ρ : JointId → JointId} {used : List JointId} {k : Skeleton} {x : Heirs}
    {nodes : List Node} (hp : Reachable origin p) (hp' : Reachable origin p')
    (hs : Expansion.Succeeded p.grammar p.nextId p'.nextId x.old nodes)
    (hrule : p.grammar.contains x.old.letter = true) (hrenamed : Renamed ρ used k p'.skeleton)
    (hused : Row.handles nodes ⊆ used) (hnodes : x.nodes = nodes.map (Node.rename ρ))
    (hsub : x.nodes ⊆ p'.nodes) : Expands p p' ρ x := by
  obtain ⟨last, hlast, hexit⟩ := hs.exists_getLast? ρ
  rw [← hnodes] at hlast
  have hmem : last ∈ x.nodes := List.mem_of_mem_getLast? hlast
  refine {
    ne_nil := List.ne_nil_of_mem hmem
    new := ?_, startsAt := ?_, last_exit := ?_, exit_once := ?_ }
  · intro n hn m hm he
    rw [hnodes] at hn
    obtain ⟨new, hnew, rfl⟩ := List.mem_map.mp hn
    -- the identities of the old nodes had been given out before
    have hlo := (hs.registered hrule new hnew).lo_le
    have hhi := (hp.registered.nodes m hm).lt_hi
    rw [← he] at hhi
    exact absurd hlo (Nat.not_le.mpr hhi)
  · have hentry : [x.old.entry] ⊆ used := by simpa using hused hs.mem_handles.1
    rw [hnodes]
    exact (hs.preorder.renamed hrenamed hentry hused).startsAt
  · intro last' hlast'
    rw [Option.mem_unique hlast' hlast]
    exact hexit
  · obtain ⟨root, hroot⟩ := hp'.sound.rooted
    rw [← hexit]
    exact List.count_eq_one_of_mem (List.nodup_cons.mp hroot.distinct).2
      (List.mem_map_of_mem (hsub hmem))

/-- In a generation of a reachable plant each node whose letter has a rule is expanded in its place,
and each other is carried over; and what started at the exit of a node starts at the exit of the
last of its heirs. -/
theorem Reachable.generate_heirs {tally : Tally} {s t : Surroundings σ} (hp : Reachable origin p)
    (h : p.generate s = .ok (p', tally) t) :
    ∃ (ρ : JointId → JointId) (heirs : List Heirs),
      heirs.map (·.old) = p.nodes ∧ p'.nodes = heirs.flatMap (·.nodes) ∧
      (∀ i ∈ Row.handles p.nodes, ∀ j ∈ Row.handles p.nodes, ρ i = ρ j → i = j) ∧
      (∀ x ∈ heirs, p.grammar.contains x.old.letter = false → x.nodes = [x.old.rename ρ]) ∧
      (∀ x ∈ heirs, p.grammar.contains x.old.letter = true → Expands p p' ρ x) ∧
      ∀ x ∈ heirs, ∀ y ∈ heirs, y.old.entry = x.old.exit →
        ∃ last ∈ x.nodes.getLast?, last.exit = ρ y.old.entry ∧
          ∀ n ∈ y.nodes.head?, n.entry = last.exit := by
  obtain ⟨root, hroot⟩ := hp.sound.rooted
  obtain ⟨parts, ρ, k, hnodes, hrenamed, -, -, hsucceeded⟩ :=
    hp.registered.exists_succeeded hroot h
  obtain ⟨heirs, hold, hflat, hheirs⟩ := Expansion.exists_heirs hsucceeded ρ
  have hnext : p'.nodes = heirs.flatMap (·.nodes) := hnodes.trans hflat
  -- no handle of the row is lost in the pass, so that the renaming is injective on all of them
  have hused : ∀ j ∈ Row.handles p.nodes, j ∈ Row.handles (parts.flatMap (·.nodes)) := by
    intro j hj
    obtain ⟨n, hn, hj⟩ := List.mem_flatMap.mp hj
    rw [← hold] at hn
    obtain ⟨x, hx, rfl⟩ := List.mem_map.mp hn
    obtain ⟨nodes, hs, hsub, -⟩ := hheirs x hx
    apply Row.handles_subset hsub
    rcases List.mem_pair.mp hj with rfl | rfl
    · exact hs.mem_handles.1
    · exact hs.mem_handles.2
  refine ⟨ρ, heirs, hold, hnext,
    fun i hi j hj => hrenamed.injective i (hused i hi) j (hused j hj), ?_, ?_, ?_⟩
  · intro x hx hrule
    obtain ⟨nodes, hs, -, heq⟩ := hheirs x hx
    rw [heq, hs.carried hrule, List.map_singleton]
  · intro x hx hrule
    obtain ⟨nodes, hs, hsub, heq⟩ := hheirs x hx
    have hx' : x.nodes ⊆ p'.nodes := by
      rw [hnext]
      exact fun n hn => List.mem_flatMap.mpr ⟨x, hx, hn⟩
    exact hp.expands (hp.generate h) hs hrule hrenamed (Row.handles_subset hsub) heq hx'
  · -- what takes the place of a follower starts where the follower did
    intro x hx y hy he
    obtain ⟨nodes, hs, -, heq⟩ := hheirs x hx
    obtain ⟨nodes', hs', -, heq'⟩ := hheirs y hy
    obtain ⟨last, hlast, hexit⟩ := hs.exists_getLast? ρ
    rw [← he] at hexit
    rw [heq]
    refine ⟨last, hlast, hexit, ?_⟩
    intro n hn
    rw [heq'] at hn
    rw [hs'.entry_of_head? ρ hn, hexit]

end Generate

/-- A plant of a grammar whose texts are empty, close brackets that were not opened, leave brackets
open and end with a turn. -/
def tangle : Garden Reel Plant := do
  let rules := Rules.ofList [('F', .fixed "]F[X+"), ('X', .fixed ""), (':', .fixed "+F:-")]
  let p ← sprout 'F' rules {} ⟨0, 0⟩
  let (p, _) ← p.generate
  return p

theorem reachable_of_tangle {s t : Surroundings Reel} {p : Plant} (h : tangle s = .ok p t) :
    Reachable ⟨0, 0⟩ p := by
  simp only [tangle, Outcome.bind_eq_ok, Outcome.pure_eq_ok] at h
  obtain ⟨p₀, r₀, hsprout, ⟨p₁, tally⟩, r₁, hgenerate, rfl, rfl⟩ := h
  exact .generate (.sprout hsprout) hgenerate

theorem exists_generate_tangle : ∃ p p' tally t t',
    tangle ⟨⟨#[0], 0⟩, #[]⟩ = .ok p t ∧ p.generate t = .ok (p', tally) t' ∧
    ∀ n ∈ p.nodes, p.grammar.contains n.letter = true := by
  have hok : Outcome.isOk (fun a => a.1.nodes.all fun n => a.1.grammar.contains n.letter) ((do
      let p ← tangle
      let (p', tally) ← p.generate
      return (p, p', tally) : Garden Reel (Plant × Plant × Tally)) ⟨⟨#[0], 0⟩, #[]⟩) = true := by
    decide +kernel
  obtain ⟨plants, r, h, hall⟩ := Outcome.exists_of_isOk hok
  simp only [Outcome.bind_eq_ok, Outcome.pure_eq_ok] at h
  obtain ⟨p, t, hp, ⟨p', tally⟩, t', hgenerate, rfl, rfl⟩ := h
  exact ⟨p, p', tally, t, t', hp, hgenerate, List.all_eq_true.mp hall⟩

/-- The heirs of the nodes of the tangle, all of which have rules. -/
theorem Reachable.generate_heirs_tangle : ∃ p p' tally t t',
    tangle ⟨⟨#[0], 0⟩, #[]⟩ = .ok p t ∧ p.generate t = .ok (p', tally) t' ∧
    p.nodes ≠ [] ∧ (∀ n ∈ p.nodes, p.grammar.contains n.letter = true) ∧
    ∃ (ρ : JointId → JointId) (heirs : List Heirs), heirs.map (·.old) = p.nodes ∧
      p'.nodes = heirs.flatMap (·.nodes) ∧ ∀ x ∈ heirs, Expands p p' ρ x := by
  obtain ⟨p, p', tally, t, t', hp, hgenerate, hcontains⟩ := exists_generate_tangle
  have hreach := reachable_of_tangle hp
  obtain ⟨ρ, heirs, hold, hnext, -, -, hexpands, -⟩ := hreach.generate_heirs hgenerate
  refine ⟨p, p', tally, t, t', hp, hgenerate, hreach.sound.ne_nil, hcontains, ρ, heirs, hold,
    hnext, ?_⟩
  intro x hx
  refine hexpands x hx (hcontains x.old ?_)
  rw [← hold]
  exact List.mem_map_of_mem hx

end Plant

end PlantGrowth
