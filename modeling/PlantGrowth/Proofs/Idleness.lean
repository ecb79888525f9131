import PlantGrowth.Proofs.Numbering
import PlantGrowth.Proofs.Settled

/-!
# Generations with nothing to replace

A generation computes every exit joint anew, puts nodes in the place of those that have rules, and
compacts the skeleton. In a reachable plant without a flow field the exits are in line with their
entries at all times (`Plant.Reachable.inSync`), and the handles are numbered, so where no node has
a rule none of the three does anything: the plant afterwards is the plant before with the next
generation number, and nothing is drawn (`Plant.Reachable.generate_idle`).
-/

set_option autoImplicit false

namespace PlantGrowth

/-! ## Frames in still air -/

/-- Without a flow field a node ends a frame in line with its entry. -/
theorem Node.Grows.exit_eq {σ : Type} [RandomSource σ] {m : Moment} {n : Node} {entry : Joint}
    {source source' : σ} {g : Grown} (h : n.Grows m entry source g source')
    (hstill : m.params.flowField = none) : g.exit = g.node.carry entry := by
  cases h with
  | placeholder _ => rfl
  | budHidden _ _ _ => rfl
  | budShown _ _ => rfl
  | waiting _ _ => rfl
  | reached _ _ _ hsway _ =>
    simp only [Branch.sway, hstill, Except.ok.injEq] at hsway
    exact hsway.symm

theorem Shown.inSync {σ : Type} [RandomSource σ] {m : Moment} {k : Skeleton} {n : Node}
    {result : Node × Option Mark} (h : Shown σ m k n result) (hstill : m.params.flowField = none) :
    InSync k result.1 := by
  obtain ⟨e, x, source, source', he, hx, hgrows⟩ := h
  obtain ⟨hentry, hexit⟩ := hgrows.handles_eq
  refine ⟨e, ?_, ?_⟩
  · rw [hentry, he]
  · rw [hexit, hx]
    exact congrArg some (hgrows.exit_eq hstill)

/-- Without a flow field all exits of a reachable plant are in line with their entries. -/
theorem Plant.Reachable.inSync {origin : Vec} {p : Plant} (hp : Reachable origin p)
    (hstill : p.params.flowField = none) : ∀ n ∈ p.nodes, InSync p.skeleton n := by
  cases hp with
  | sprout h =>
    obtain ⟨node, m, hseed, rfl, -⟩ := sprout_eq_ok h
    have hbound : (soil origin).size ≤ (0 : UInt32).toNat + 1 := Nat.le_refl 1
    exact fun n hn => hseed.attached.1.inSync hbound hn
  | generate hp h => exact (hp.sound.generate h).2
  | tick hp h =>
    obtain ⟨root, hroot⟩ := hp.sound.rooted
    obtain ⟨nodes, k, source, hgrow, rfl, -⟩ := tick_eq_ok h
    obtain ⟨results, rfl, -, hshown, -⟩ := shown_of_growAll hgrow hroot
    intro n hn
    obtain ⟨result, hr, rfl⟩ := List.mem_map.mp hn
    obtain ⟨old, -, hold⟩ := exists_shown hshown hr
    exact hold.inSync hstill

/-! ## Passes that carry all nodes over -/

namespace Tally

/-- Nodes that are carried over one by one are carried over together. -/
theorem foldlM_carried (row : List Node) (done : Nat) :
    (row.map fun _ => ({ carried := 1 } : Tally)).foldlM add { carried := done } =
      .ok { carried := done + row.length } := by
  induction row generalizing done with
  | nil => rfl
  | cons n row ih =>
    have hadd : add { carried := done } { carried := 1 } = .ok { carried := done + 1 } := rfl
    rw [List.map_cons, List.foldlM_cons, hadd]
    show (row.map fun _ => ({ carried := 1 } : Tally)).foldlM add { carried := done + 1 } = _
    rw [ih, List.length_cons, Nat.add_assoc, Nat.add_comm 1]

theorem total_carried (row : List Node) :
    total (row.map fun _ => { carried := 1 }) = .ok { carried := row.length } := by
  rw [total, foldlM_carried, Nat.zero_add]

end Tally

namespace Expansion

variable {σ : Type} [RandomSource σ] {grammar : Grammar} {params : GrowthParams} {s : Nursery σ}

/-- A node in line with its entry and without a rule is left as it is. -/
theorem replace_idle {old : Node} (hrule : old.hasRule = false)
    (hsync : InSync s.site.skeleton old) :
    replace grammar params old s = .ok ⟨[old], { carried := 1 }⟩ s := by
  have hrefresh : Build.onSite (OnSite.refresh old) s = .ok () s :=
    Build.onSite_eq_ok.mpr ⟨s.site, (inSync_iff_refresh_eq s.site.source).mp hsync, rfl⟩
  have hnone : rule? grammar old = none := by simp [rule?, hrule]
  unfold replace
  rw [hnone]
  exact Outcome.bind_eq_ok.mpr ⟨(), s, hrefresh, rfl⟩

theorem mapM_replace_idle {row : List Node} (hrow : ∀ n ∈ row, n.hasRule = false)
    (hsync : ∀ n ∈ row, InSync s.site.skeleton n) :
    (row.mapM (replace grammar params)) s =
      .ok (row.map fun n => ⟨[n], { carried := 1 }⟩) s := by
  induction row with
  | nil => exact Outcome.mapM_nil_eq_ok.mpr ⟨rfl, rfl⟩
  | cons n row ih =>
    rw [List.forall_mem_cons] at hrow hsync
    exact Outcome.mapM_cons_eq_ok.mpr
      ⟨_, s, _, replace_idle hrow.1 hsync.1, ih hrow.2 hsync.2, rfl⟩

theorem replaceAll_idle {row : List Node} (hrow : ∀ n ∈ row, n.hasRule = false)
    (hsync : ∀ n ∈ row, InSync s.site.skeleton n) :
    replaceAll grammar params row s = .ok ⟨row, { carried := row.length }⟩ s := by
  have hnodes : (row.map fun n => (⟨[n], { carried := 1 }⟩ : Replacement)).flatMap (·.nodes) = row := by
    rw [List.flatMap_map]
    exact List.flatMap_singleton' row
  have htally : Tally.total ((row.map fun n => (⟨[n], { carried := 1 }⟩ : Replacement)).map
      (·.tally)) = .ok { carried := row.length } := by
    rw [List.map_map]
    exact Tally.total_carried row
  unfold replaceAll
  refine Outcome.bind_eq_ok.mpr ⟨_, s, mapM_replace_idle hrow hsync, ?_⟩
  refine Outcome.bind_eq_ok.mpr ⟨_, s, Build.check_eq_ok.mpr ⟨htally, rfl⟩, ?_⟩
  rw [hnodes]
  rfl

end Expansion

/-! ## Plants -/

namespace Plant

variable {origin : Vec} {p : Plant}

/-- A generation of a reachable plant without a flow field and without nodes that have rules gives
the same plant, with the next generation number if there is one. It carries all nodes over, draws
nothing and only adds to the journal. -/
theorem Reachable.generate_idle (hp : Reachable origin p) (hstill : p.params.flowField = none)
    (hrules : ∀ n ∈ p.nodes, n.hasRule = false) (σ : Type) [RandomSource σ] (s : Surroundings σ) :
    p.generate s =
      if p.generation.toNat + 1 < UInt32.size then
        .ok ({ p with generation := p.generation + 1 }, { carried := p.nodes.length })
          ⟨s.source, s.journal.push
            (.generation (p.generation + 1) p.nodes.length p.age 0 0 0)⟩
      else .error .addOverflow s := by
  have hbuild : Garden.build p.skeleton p.age p.nextId
      (Expansion.replaceAll p.grammar p.params p.nodes) s =
        .ok (⟨p.nodes, { carried := p.nodes.length }⟩,
          ⟨⟨p.skeleton, s.source⟩, p.age, p.nextId, #[]⟩) s := by
    unfold Garden.build
    rw [Expansion.replaceAll_idle hrules (hp.inSync hstill)]
  have hkept : Garden.check (p.skeleton.compact p.nodes) s = .ok ⟨p.skeleton, p.nodes, 0⟩ s :=
    Garden.check_eq_ok.mpr ⟨Skeleton.compact_of_numbered hp.numbered, rfl⟩
  have hword : addWord p.generation 1 = if p.generation.toNat + 1 < UInt32.size then
      .ok (p.generation + 1) else .error .addOverflow := rfl
  refine (Outcome.bind_of_ok hbuild).trans ((Outcome.bind_of_ok hkept).trans ?_)
  show (Garden.check (addWord p.generation 1) >>= _) s = _
  rw [hword]
  split <;> rfl

/-- A plant that has branched once in still air, has grown for one frame and has used up its
rules. -/
def sprig : Garden Reel Plant := do
  let p ← sprout 'F' (Rules.empty.insert 'F' (.fixed "G[+G]X")) {} ⟨0, 0⟩
  let (p, _) ← p.generate
  let (p, _) ← p.tick 0 fun _ _ _ => .ok 0
  return p

theorem reachable_of_sprig {s t : Surroundings Reel} {p : Plant} (h : sprig s = .ok p t) :
    Reachable ⟨0, 0⟩ p := by
  simp only [sprig, Outcome.bind_eq_ok, Outcome.pure_eq_ok] at h
  obtain ⟨p₀, r₀, hsprout, ⟨p₁, tally⟩, r₁, hgenerate, ⟨p₂, marks⟩, r₂, htick, rfl, rfl⟩ := h
  exact .tick (.generate (.sprout hsprout) hgenerate) htick

/-- The next generation of the sprig differs from it in the generation number alone. -/
theorem Reachable.generate_idle_sprig : ∃ p t, sprig ⟨⟨#[0], 0⟩, #[]⟩ = .ok p t ∧
    p.params.flowField = none ∧ p.nodes ≠ [] ∧ (∀ n ∈ p.nodes, n.hasRule = false) ∧
    p.generate t = .ok ({ p with generation := p.generation + 1 }, { carried := p.nodes.length })
      ⟨t.source, t.journal.push (.generation (p.generation + 1) p.nodes.length p.age 0 0 0)⟩ := by
  have hok : Outcome.isOk (fun p => p.params.flowField.isNone && p.nodes.all (!·.hasRule) &&
      decide (p.generation.toNat + 1 < UInt32.size)) (sprig ⟨⟨#[0], 0⟩, #[]⟩) = true := by
    decide +kernel
  obtain ⟨p, t, h, hidle⟩ := Outcome.exists_of_isOk hok
  simp only [Bool.and_eq_true, Option.isNone_iff_eq_none, List.all_eq_true, Bool.not_eq_true',
    decide_eq_true_eq] at hidle
  obtain ⟨⟨hstill, hrules⟩, hcount⟩ := hidle
  have hp := reachable_of_sprig h
  have hnext := hp.generate_idle hstill hrules Reel t
  rw [if_pos hcount] at hnext
  exact ⟨p, t, h, hstill, hp.sound.ne_nil, hrules, hnext⟩

end Plant

end PlantGrowth
