import PlantGrowth.Proofs.Passes

/-!
# Identities of nodes

A node keeps its identity as long as it is there, and no identity is given out twice, however a
plant goes on. One pass keeps the identities of a row distinct (`Expansion.Pass.nodup_id`), for the
new ones are consecutive from the next identity on and that is above all old ones. By induction on
the history this holds of every reachable plant (`Plant.Reachable.nodup_id`). As the next identity
never falls, what a generation gives out lies above all identities of all earlier states
(`Plant.Reachable.identities_unique`).
-/

set_option autoImplicit false

namespace PlantGrowth

theorem Issued.nodup_id {id id' : UInt32} {ns : List Node} (h : Issued id ns id') :
    (ns.map (·.id)).Nodup := by
  apply List.Nodup.of_map UInt32.toNat
  rw [List.map_map]
  show (ns.map (·.id.toNat)).Nodup
  rw [h.map_id]
  exact List.nodup_range'

namespace Expansion.Pass

variable {grammar : Grammar} {id id' : UInt32} {row : List Node} {parts : List Replacement}

/-- The nodes of the next row with identities from `id` on are those that the pass makes. -/
theorem filter_le_id (h : Pass grammar id row parts id') (hrow : ∀ n ∈ row, n.id < id) :
    (parts.flatMap (·.nodes)).filter (fun n => id ≤ n.id) = grown grammar row parts := by
  apply h.filter_new
  · intro n hn
    exact decide_eq_false (UInt32.not_le.mpr (hrow n hn))
  · intro n hn
    exact decide_eq_true (UInt32.le_iff_toNat_le.mpr (h.issued.le_id hn))

/-- The others are those that it does not expand. -/
theorem filter_id_lt (h : Pass grammar id row parts id') (hrow : ∀ n ∈ row, n.id < id) :
    (parts.flatMap (·.nodes)).filter (fun n => n.id < id) =
      row.filter fun n => (rule? grammar n).isNone := by
  apply h.filter_old
  · intro n hn
    exact decide_eq_true (hrow n hn)
  · intro n hn
    exact decide_eq_false (UInt32.not_lt.mpr (UInt32.le_iff_toNat_le.mpr (h.issued.le_id hn)))

/-- A pass over a row of distinct identities makes such a row. -/
theorem nodup_id (h : Pass grammar id row parts id') (hrow : ∀ n ∈ row, n.id < id)
    (hnodup : (row.map (·.id)).Nodup) : ((parts.flatMap (·.nodes)).map (·.id)).Nodup := by
  -- sorted by whether they were there before, the identities are distinct in each of two parts
  have hperm := List.filter_append_perm (fun n => decide (n.id < id)) (parts.flatMap (·.nodes))
  have hnew : (parts.flatMap (·.nodes)).filter (fun n => !decide (n.id < id)) =
      grown grammar row parts := by
    rw [← h.filter_le_id hrow]
    refine List.filter_congr fun n _ => ?_
    rw [← decide_not, decide_eq_decide]
    exact UInt32.not_lt
  rw [h.filter_id_lt hrow, hnew] at hperm
  rw [← (hperm.map (·.id)).nodup_iff, List.map_append, List.nodup_append]
  refine ⟨?_, h.issued.nodup_id, ?_⟩
  · exact hnodup.sublist (List.filter_sublist.map _)
  · intro i hi j hj
    obtain ⟨n, hn, rfl⟩ := List.mem_map.mp hi
    obtain ⟨m, hm, rfl⟩ := List.mem_map.mp hj
    have hlow := UInt32.lt_iff_toNat_lt.mp (hrow n (List.mem_filter.mp hn).1)
    have hhigh := h.issued.le_id hm
    intro he
    rw [he] at hlow
    exact absurd hlow (Nat.not_lt.mpr hhigh)

end Expansion.Pass

namespace Plant

variable {origin : Vec} {p : Plant}

theorem map_id_of_tick {σ : Type} [RandomSource σ] {p' : Plant} {time : Scalar} {noise : Noise}
    {marks : List Mark} {s t : Surroundings σ} (h : p.tick time noise s = .ok (p', marks) t) :
    p'.nodes.map (·.id) = p.nodes.map (·.id) := by
  rw [← List.forall₂_eq_eq_eq, List.forall₂_map_left_iff, List.forall₂_map_right_iff]
  refine (grows_of_tick h).flip.imp ?_
  rintro n' n ⟨m, e, x, mark, source, source', hgrows⟩
  exact hgrows.register_eq.1

theorem Reachable.id_lt (hp : Reachable origin p) {n : Node} (hn : n ∈ p.nodes) :
    n.id < p.nextId :=
  UInt32.lt_iff_toNat_lt.mpr (hp.registered.nodes n hn).lt_hi

/-- No two nodes of a reachable plant have the same identity. -/
theorem Reachable.nodup_id (hp : Reachable origin p) : (p.nodes.map (·.id)).Nodup := by
  induction hp with
  | sprout h =>
    obtain ⟨node, m, -, rfl, -⟩ := sprout_eq_ok h
    exact List.nodup_singleton _
  | @generate _ _ p p' tally s t hp h ih =>
    obtain ⟨parts, m, ρ, -, hpass, hnodes⟩ := hp.exists_pass h
    rw [hnodes, List.map_map]
    exact hpass.nodup_id (fun n hn => hp.id_lt hn) ih
  | tick _ h ih =>
    rw [map_id_of_tick h]
    exact ih

/-- Identities are distinct and are given out once. In a reachable plant no two nodes have the same
identity, and all identities are below the next one. In a generation of it the nodes that are not
expanded stay in their places, and those that are made get the next identities in the order of the
row, none of which was the identity of a node in any state of the plant so far. -/
theorem Reachable.identities_unique (hp : Reachable origin p) :
    (p.nodes.map (·.id)).Nodup ∧ (∀ n ∈ p.nodes, n.id < p.nextId) ∧
    ∀ (σ : Type) [RandomSource σ] (s t : Surroundings σ) (p' : Plant) (tally : Tally),
      p.generate s = .ok (p', tally) t →
      ∃ parts m ρ, (p.nodes.mapM (Expansion.replace p.grammar p.params))
          ⟨⟨p.skeleton, s.source⟩, p.age, p.nextId, s.journal⟩ = .ok parts m ∧
        p'.nodes = (parts.flatMap (·.nodes)).map (Node.rename ρ) ∧
        parts.length = p.nodes.length ∧
        (∀ x ∈ p.nodes.zip parts, Expansion.rule? p.grammar x.1 = none → x.2.nodes = [x.1]) ∧
        p'.nodes.filter (fun n => p.nextId ≤ n.id) =
          (Expansion.grown p.grammar p.nodes parts).map (Node.rename ρ) ∧
        (Expansion.grown p.grammar p.nodes parts).map (·.id.toNat) =
          List.range' p.nextId.toNat (Expansion.grown p.grammar p.nodes parts).length ∧
        ∀ n ∈ Expansion.grown p.grammar p.nodes parts,
          ∀ q, Reachable origin q → q.Becomes p → ∀ m ∈ q.nodes, n.id ≠ m.id := by
  refine ⟨hp.nodup_id, fun n hn => hp.id_lt hn, ?_⟩
  intro σ _ s t p' tally h
  obtain ⟨parts, m, ρ, hparts, hpass, hnodes⟩ := hp.exists_pass h
  refine ⟨parts, m, ρ, hparts, hnodes, hpass.length_eq, hpass.nodes_of_none, ?_,
    hpass.issued.map_id, ?_⟩
  · rw [hnodes, List.filter_map]
    exact congrArg (List.map (Node.rename ρ)) (hpass.filter_le_id fun n hn => hp.id_lt hn)
  · intro n hn q hq hbecomes m hm he
    have hnew : p.nextId.toNat ≤ n.id.toNat := hpass.issued.le_id hn
    have hold : m.id.toNat < q.nextId.toNat := (hq.registered.nodes m hm).lt_hi
    have hle : q.nextId.toNat ≤ p.nextId.toNat := hq.nextId_le hbecomes
    rw [he] at hnew
    omega

/-- The identities of the sapling and of its next generation, which keeps some of its nodes. -/
theorem Reachable.identities_unique_sapling : ∃ p p' tally t t',
    sapling ⟨⟨#[0], 0⟩, #[]⟩ = .ok p t ∧ p.generate t = .ok (p', tally) t' ∧
    tally.carried ≠ 0 ∧ p.nodes.length < p'.nodes.length ∧
    (p.nodes.map (·.id)).Nodup ∧ (∀ n ∈ p.nodes, n.id < p.nextId) ∧
    ∃ parts m ρ, (p.nodes.mapM (Expansion.replace p.grammar p.params))
        ⟨⟨p.skeleton, t.source⟩, p.age, p.nextId, t.journal⟩ = .ok parts m ∧
      p'.nodes = (parts.flatMap (·.nodes)).map (Node.rename ρ) ∧
      parts.length = p.nodes.length ∧
      (∀ x ∈ p.nodes.zip parts, Expansion.rule? p.grammar x.1 = none → x.2.nodes = [x.1]) ∧
      p'.nodes.filter (fun n => p.nextId ≤ n.id) =
        (Expansion.grown p.grammar p.nodes parts).map (Node.rename ρ) ∧
      (Expansion.grown p.grammar p.nodes parts).map (·.id.toNat) =
        List.range' p.nextId.toNat (Expansion.grown p.grammar p.nodes parts).length ∧
      ∀ n ∈ Expansion.grown p.grammar p.nodes parts,
        ∀ q, Reachable ⟨0, 0⟩ q → q.Becomes p → ∀ m ∈ q.nodes, n.id ≠ m.id := by
  have hok : Outcome.isOk
      (fun r => r.2.2.carried != 0 && decide (r.1.nodes.length < r.2.1.nodes.length))
      ((do let p ← sapling; return (p, ← p.generate) : Garden Reel (Plant × Plant × Tally))
        ⟨⟨#[0], 0⟩, #[]⟩) = true := by
    decide +kernel
  obtain ⟨⟨p, p', tally⟩, t', h, hcounts⟩ := Outcome.exists_of_isOk hok
  simp only [Outcome.bind_eq_ok, Outcome.pure_eq_ok, Prod.mk.injEq] at h
  obtain ⟨p, t, hp, next, t', hgenerate, ⟨rfl, rfl⟩, rfl⟩ := h
  simp only [Bool.and_eq_true, bne_iff_ne, decide_eq_true_eq] at hcounts
  obtain ⟨hnodup, hlt, hgiven⟩ := (reachable_of_sapling hp).identities_unique
  exact ⟨p, p', tally, t, _, hp, hgenerate, hcounts.1, hcounts.2, hnodup, hlt,
    hgiven Reel t _ p' tally hgenerate⟩

end Plant

end PlantGrowth
