import PlantGrowth.Proofs.Counters
import PlantGrowth.Proofs.Memoryless
import PlantGrowth.Proofs.Succession

/-!
# As many joints as nodes, and one

A plant has one joint for its root and one for the exit of every node, and no others
(`Rooted.perm_range`). A generation makes a joint for every node it grows. The last node of an
expansion takes over the exit of the node it replaces and leaves its own unused, and nothing else
is left unused: `Expansion.size_of_replace` is the balance for one node, `Expansion.size_of_mapM`
that for a row. So a compaction frees as many joints as nodes were replaced, whatever brackets and
bridges the texts have (`Plant.Reachable.joints_balanced`).
-/

set_option autoImplicit false

namespace PlantGrowth

/-! ## The joints of a rooted row -/

/-- The root and the exits of the nodes are the joints of the skeleton, each of them once. -/
theorem Rooted.perm_range {origin : Vec} {root : JointId} {row : List Node} {k : Skeleton}
    {id : UInt32} (h : Rooted origin root row k id) (hcovers : Row.Covers root row k) :
    ((root :: row.map (·.exit)).map (·.index)).Perm (List.range k.size) := by
  have hnodup : ((root :: row.map (·.exit)).map (·.index)).Nodup :=
    List.Nodup.map_on (fun _ _ _ _ he => JointId.ext_index he) h.distinct
  rw [List.perm_ext_iff_of_nodup hnodup List.nodup_range]
  intro i
  rw [List.mem_map, List.mem_range]
  constructor
  · rintro ⟨j, hj, rfl⟩
    exact h.inside j hj
  · exact hcovers i

theorem Rooted.size_eq {origin : Vec} {root : JointId} {row : List Node} {k : Skeleton}
    {id : UInt32} (h : Rooted origin root row k id) (hcovers : Row.Covers root row k) :
    k.size = row.length + 1 := by
  have hlength := (h.perm_range hcovers).length_eq
  rw [List.length_map, List.length_cons, List.length_map, List.length_range] at hlength
  exact hlength.symm

/-! ## Joints made by an expansion -/

namespace Tally

theorem counts_of_add {a b c : Tally} (h : add a b = .ok c) :
    c.replaced = a.replaced + b.replaced ∧ c.carried = a.carried + b.carried := by
  simp only [add, Outcome.except_bind_eq_ok, Outcome.except_pure_eq_ok] at h
  obtain ⟨saves, -, restores, -, strays, -, rfl⟩ := h
  exact ⟨rfl, rfl⟩

/-- A count that adds up for two parts adds up for any number of them. -/
theorem sum_of_foldlM (count : Tally → Nat)
    (hcount : ∀ a b c, add a b = .ok c → count c = count a + count b) {parts : List Tally}
    {start t : Tally} (h : parts.foldlM add start = .ok t) :
    count t = count start + (parts.map count).sum := by
  induction parts generalizing start with
  | nil =>
    cases h
    rfl
  | cons part parts ih =>
    rw [List.foldlM_cons] at h
    obtain ⟨next, hnext, hrest⟩ := Outcome.except_bind_eq_ok.mp h
    rw [ih hrest, hcount start part next hnext, List.map_cons, List.sum_cons, Nat.add_assoc]

theorem counts_of_total {parts : List Tally} {t : Tally} (h : total parts = .ok t) :
    t.replaced = (parts.map (·.replaced)).sum ∧ t.carried = (parts.map (·.carried)).sum := by
  constructor
  · rw [sum_of_foldlM (·.replaced) (fun _ _ _ hadd => (counts_of_add hadd).1) h]
    exact Nat.zero_add _
  · rw [sum_of_foldlM (·.carried) (fun _ _ _ hadd => (counts_of_add hadd).2) h]
    exact Nat.zero_add _

end Tally

namespace Expansion

variable {σ : Type} {grammar : Grammar} {params : GrowthParams}

theorem size_of_relinkLast {target : JointId} {row row' : List Node} {s t : Site σ}
    (h : relinkLast target row s = .ok row' t) : t.skeleton.size = s.skeleton.size := by
  rcases List.eq_nil_or_concat row with rfl | ⟨front, last, rfl⟩
  · rw [(Outcome.pure_eq_ok.mp h).2]
  · rw [List.concat_eq_append] at h
    obtain ⟨last', hlink, -⟩ := relinkLast_concat_eq_ok h
    by_cases hne : target = last.exit
    · simp only [OnSite.relink, if_pos hne, Outcome.pure_eq_ok] at hlink
      rw [hlink.2]
    · obtain ⟨j, -, -, rfl⟩ := OnSite.relink_eq_ok hne hlink
      exact Skeleton.size_put ..

variable [RandomSource σ] {s t : Nursery σ}

/-- An expansion makes a joint for each of its nodes. -/
theorem Expanded.size_eq {old : Node} {rule : Rule (List Letter)} {r : Replacement}
    (x : Expanded grammar params old rule s r t) :
    t.site.skeleton.size = s.site.skeleton.size + r.nodes.length := by
  obtain ⟨site, hlast, ht⟩ := x.relink_eq
  have hsize : t.site.skeleton.size = site.skeleton.size := by rw [ht]
  rw [hsize, size_of_relinkLast hlast, x.attached.size_eq, length_relinkLast hlast]
  rfl

/-- Where a node is replaced, one joint more is made than there are nodes more. -/
theorem size_of_replace {old : Node} {r : Replacement}
    (h : replace grammar params old s = .ok r t) :
    t.site.skeleton.size + 1 = s.site.skeleton.size + r.nodes.length + r.tally.replaced ∧
      r.tally.replaced = if (rule? grammar old).isSome then 1 else 0 := by
  obtain ⟨e, -, -, hexpand, hcarry⟩ := replace_eq_ok h
  cases hrule : rule? grammar old with
  | some rule =>
    obtain ⟨x⟩ := hexpand rule hrule
    have hsize : t.site.skeleton.size =
        (s.site.skeleton.put old.exit (old.carry e)).size + r.nodes.length := x.size_eq
    rw [hsize, Skeleton.size_put, x.tally_eq]
    exact ⟨rfl, rfl⟩
  | none =>
    obtain ⟨-, rfl⟩ := hcarry hrule
    obtain ⟨rfl, -, -⟩ := carried_of_replace h hrule
    exact ⟨congrArg (· + 1) (Skeleton.size_put ..), rfl⟩

/-- The joints made in a pass are those of the new nodes and one for each node replaced. -/
theorem size_of_mapM {row : List Node} {parts : List Replacement}
    (h : (row.mapM (replace grammar params)) s = .ok parts t) :
    t.site.skeleton.size + row.length = s.site.skeleton.size +
        (parts.flatMap (·.nodes)).length + (parts.map (·.tally.replaced)).sum ∧
      (parts.map (·.tally.replaced)).sum = row.countP fun n => (rule? grammar n).isSome := by
  induction row generalizing s parts with
  | nil =>
    obtain ⟨rfl, rfl⟩ := Outcome.mapM_nil_eq_ok.mp h
    exact ⟨rfl, rfl⟩
  | cons old row ih =>
    obtain ⟨r, u, parts', hr, hrest, rfl⟩ := Outcome.mapM_cons_eq_ok.mp h
    obtain ⟨hsize, hcount⟩ := size_of_replace hr
    obtain ⟨hsize', hcount'⟩ := ih hrest
    rw [List.flatMap_cons, List.length_append, List.map_cons, List.sum_cons, List.length_cons,
      List.countP_cons]
    omega

theorem size_of_replaceAll {row : List Node} {next : Replacement}
    (h : replaceAll grammar params row s = .ok next t) :
    t.site.skeleton.size + row.length =
        s.site.skeleton.size + next.nodes.length + next.tally.replaced ∧
      next.tally.replaced = row.countP fun n => (rule? grammar n).isSome := by
  obtain ⟨parts, hparts, hnodes, htally⟩ := replaceAll_eq_ok h
  have hreplaced := (Tally.counts_of_total htally).1
  rw [List.map_map] at hreplaced
  rw [hnodes, hreplaced]
  exact size_of_mapM hparts

/-- No handle has wrapped at the end of a pass over a rooted row. -/
theorem size_le_of_replaceAll {origin : Vec} {root : JointId} {row : List Node} {next : Replacement}
    (h : replaceAll grammar params row s = .ok next t)
    (hroot : Rooted origin root row s.site.skeleton s.nextId) :
    t.site.skeleton.size ≤ UInt32.size :=
  (rooted_of_replaceAll h hroot).size_le.trans t.nextId.toNat_lt

end Expansion

/-! ## Plants -/

namespace Plant

variable {origin : Vec} {p : Plant}

/-- A reachable plant has one joint more than it has nodes. -/
theorem Reachable.size_eq (hp : Reachable origin p) : p.skeleton.size = p.nodes.length + 1 := by
  obtain ⟨root, hroot, hcovers⟩ := hp.covers
  exact hroot.size_eq hcovers

theorem Reachable.rule?_isSome (hp : Reachable origin p) {n : Node} (hn : n ∈ p.nodes) :
    (Expansion.rule? p.grammar n).isSome = n.hasRule := by
  have hrule := (hp.registered.nodes n hn).hasRule_eq
  rw [Expansion.rule?_eq_find? hrule, hrule]
  rfl

/-- A generation with the journal entry that it leaves. -/
theorem journal_of_generate {σ : Type} [RandomSource σ] {p' : Plant} {tally : Tally}
    {s t : Surroundings σ} (h : p.generate s = .ok (p', tally) t) :
    ∃ next m c, Expansion.replaceAll p.grammar p.params p.nodes
        ⟨⟨p.skeleton, s.source⟩, p.age, p.nextId, s.journal⟩ = .ok next m ∧
      m.site.skeleton.compact next.nodes = .ok c ∧ tally = next.tally ∧
      p'.nodes = c.nodes ∧ p'.skeleton = c.skeleton ∧
      t.journal = m.journal.push (.generation p'.generation p'.nodes.length p'.age tally.replaced
        tally.bridged c.freed) := by
  simp only [generate, Outcome.bind_eq_ok, Outcome.pure_eq_ok, Garden.note_eq_ok,
    Garden.check_eq_ok, Prod.mk.injEq] at h
  obtain ⟨⟨next, nursery⟩, r, hbuild, c, r₁, ⟨hcompact, rfl⟩, generation, r₂,
    ⟨hgeneration, rfl⟩, u, r₃, rfl, ⟨rfl, rfl⟩, rfl⟩ := h
  obtain ⟨m, hnext, rfl, rfl⟩ := Garden.build_eq_ok.mp hbuild
  exact ⟨next, m, c, hnext, hcompact, rfl, rfl, rfl, rfl⟩

/-- In every reachable plant the root and the exits of the nodes are all the joints there are, each
of them once. A generation with a result replaces the nodes that have rules and frees as many
joints, of which its journal entry tells. -/
theorem Reachable.joints_balanced (hp : Reachable origin p) :
    p.skeleton.size = p.nodes.length + 1 ∧
    (∃ root, (∀ n ∈ p.nodes.head?, n.entry = root) ∧
      ((root :: p.nodes.map (·.exit)).map (·.index)).Perm (List.range p.skeleton.size)) ∧
    ∀ (σ : Type) [RandomSource σ] (s t : Surroundings σ) (p' : Plant) (tally : Tally),
      p.generate s = .ok (p', tally) t →
      tally.replaced = p.nodes.countP (·.hasRule) ∧
      (∃ next m c, Expansion.replaceAll p.grammar p.params p.nodes
          ⟨⟨p.skeleton, s.source⟩, p.age, p.nextId, s.journal⟩ = .ok next m ∧
        m.site.skeleton.compact next.nodes = .ok c ∧ p'.nodes = c.nodes ∧
        p'.skeleton = c.skeleton ∧ c.freed = tally.replaced ∧
        m.site.skeleton.size = c.skeleton.size + tally.replaced) ∧
      t.journal.back? = some (.generation p'.generation p'.nodes.length p'.age tally.replaced
        tally.bridged tally.replaced) := by
  obtain ⟨root, hroot, hcovers⟩ := hp.covers
  refine ⟨hp.size_eq, ⟨root, fun n hn => hroot.entry_of_head? hn, hroot.perm_range hcovers⟩, ?_⟩
  intro σ _ s t p' tally h
  obtain ⟨next, m, c, hnext, hcompact, rfl, hnodes, hskeleton, hjournal⟩ := journal_of_generate h
  obtain ⟨hmade, hcount⟩ := Expansion.size_of_replaceAll hnext
  obtain ⟨ρ, hmap, -, hfreed⟩ :=
    Skeleton.compact_eq_ok (Expansion.size_le_of_replaceAll hnext hroot) hcompact
  have hlength : c.nodes.length = next.nodes.length := by rw [hmap, List.length_map]
  -- before and after, the joints are the nodes and one
  have hbefore : p.skeleton.size = p.nodes.length + 1 := hp.size_eq
  have hafter : c.skeleton.size = c.nodes.length + 1 := by
    rw [← hnodes, ← hskeleton]
    exact (hp.generate h).size_eq
  have hpass : m.site.skeleton.size = c.skeleton.size + next.tally.replaced := by
    dsimp only at hmade
    omega
  have hreplaced : c.freed = next.tally.replaced := by omega
  refine ⟨?_, ⟨next, m, c, hnext, hcompact, hnodes, hskeleton, hreplaced, hpass⟩, ?_⟩
  · rw [hcount]
    exact List.countP_congr fun n hn => by rw [hp.rule?_isSome hn]
  · rw [hjournal, hreplaced]
    exact Array.back?_push

/-- The joints of the tangle, whose texts have stray and open brackets and need bridges. -/
theorem Reachable.joints_balanced_tangle : ∃ p p' tally t t',
    tangle ⟨⟨#[0], 0⟩, #[]⟩ = .ok p t ∧ p.generate t = .ok (p', tally) t' ∧
    tally.balanced = false ∧ tally.bridged ≠ 0 ∧ tally.replaced ≠ 0 ∧
    p.skeleton.size = p.nodes.length + 1 ∧
    (∃ root, (∀ n ∈ p.nodes.head?, n.entry = root) ∧
      ((root :: p.nodes.map (·.exit)).map (·.index)).Perm (List.range p.skeleton.size)) ∧
    tally.replaced = p.nodes.countP (·.hasRule) ∧
    (∃ next m c, Expansion.replaceAll p.grammar p.params p.nodes
        ⟨⟨p.skeleton, t.source⟩, p.age, p.nextId, t.journal⟩ = .ok next m ∧
      m.site.skeleton.compact next.nodes = .ok c ∧ p'.nodes = c.nodes ∧
      p'.skeleton = c.skeleton ∧ c.freed = tally.replaced ∧
      m.site.skeleton.size = c.skeleton.size + tally.replaced) ∧
    t'.journal.back? = some (.generation p'.generation p'.nodes.length p'.age tally.replaced
      tally.bridged tally.replaced) := by
  have hok : Outcome.isOk (fun r => !r.2.balanced && r.2.bridged != 0 && r.2.replaced != 0)
      ((do let p ← tangle; p.generate : Garden Reel (Plant × Tally)) ⟨⟨#[0], 0⟩, #[]⟩) = true := by
    decide +kernel
  obtain ⟨⟨p', tally⟩, t', h, hcounts⟩ := Outcome.exists_of_isOk hok
  obtain ⟨p, t, hp, hgenerate⟩ := Outcome.bind_eq_ok.mp h
  simp only [Bool.and_eq_true, bne_iff_ne, Bool.not_eq_true'] at hcounts
  obtain ⟨⟨hbalanced, hbridged⟩, hreplaced⟩ := hcounts
  obtain ⟨hsize, hroot, hbalance⟩ := (reachable_of_tangle hp).joints_balanced
  exact ⟨p, p', tally, t, t', hp, hgenerate, hbalanced, hbridged, hreplaced, hsize, hroot,
    hbalance Reel t t' p' tally hgenerate⟩

end Plant

end PlantGrowth
