import PlantGrowth.Proofs.JointCount

/-!
# Passes over the nodes of a plant

In a generation each node of the row either stays or gives way to new nodes, and the new nodes get
the next identities. `Expansion.Pass` is the record of that, node by node, with the next identity
threaded through. The identities that one expansion gives out are consecutive (`Issued`), and so
are those of a whole pass in the order of the row (`Pass.issued`). What tells old nodes from new
ones splits the next row into the nodes that stayed and those that were made (`Pass.filter_old`,
`Pass.filter_new`).

A plant goes on by generations and frames (`Plant.Step`), and `Plant.Becomes` relates it to all of
its later states. On the way the grammar stays and the next identity never falls.
-/

set_option autoImplicit false

namespace PlantGrowth

/-! ## Identities given out -/

/-- The nodes have the next identities in order. -/
structure Issued (id : UInt32) (ns : List Node) (id' : UInt32) : Prop where
  map_id : ns.map (·.id.toNat) = List.range' id.toNat ns.length
  nextId_eq : id'.toNat = id.toNat + ns.length

namespace Issued

variable {id id' id'' : UInt32} {ns ms : List Node}

theorem nil (id : UInt32) : Issued id [] id := ⟨rfl, rfl⟩

/-- Identities issued in two stretches are issued in one. -/
theorem append (h : Issued id ns id') (h' : Issued id' ms id'') : Issued id (ns ++ ms) id'' := by
  constructor
  · rw [List.map_append, h.map_id, h'.map_id, h.nextId_eq, List.length_append,
      ← List.range'_append_1]
  · rw [h'.nextId_eq, h.nextId_eq, List.length_append, Nat.add_assoc]

/-- An issued identity is not below the first one. -/
theorem le_id (h : Issued id ns id') {n : Node} (hn : n ∈ ns) : id.toNat ≤ n.id.toNat := by
  have hmem : n.id.toNat ∈ ns.map (·.id.toNat) := List.mem_map_of_mem hn
  rw [h.map_id, List.mem_range'_1] at hmem
  exact hmem.1

theorem congr (h : Issued id ns id') (hids : ms.map (·.id) = ns.map (·.id)) :
    Issued id ms id' := by
  have hlength : ms.length = ns.length := by simpa using congrArg List.length hids
  have hmap : ms.map (·.id.toNat) = ns.map (·.id.toNat) := by
    have hwords := congrArg (List.map UInt32.toNat) hids
    rwa [List.map_map, List.map_map] at hwords
  exact ⟨by rw [hmap, hlength, h.map_id], by rw [hlength, h.nextId_eq]⟩

end Issued

/-- Attaching nodes gives out the next identities. -/
theorem Attached.issued {k k' : Skeleton} {id id' : UInt32} {ns : List Node}
    (h : Attached k id ns k' id') : Issued id ns id' := by
  refine ⟨?_, h.nextId_eq⟩
  induction h with
  | nil => rfl
  | cons _ hid _ hnext _ ih =>
    have hword : _ = _ + 1 := addWord_ok hnext
    rw [List.map_cons, ih, hid, hword, List.length_cons, List.range'_succ]

namespace Expansion

variable {σ : Type} [RandomSource σ] {grammar : Grammar} {params : GrowthParams} {old : Node}
  {s t : Nursery σ} {r : Replacement}

omit [RandomSource σ] in
/-- Taking over an exit leaves the identities of a row. -/
theorem map_id_of_relinkLast {target : JointId} {row row' : List Node} {s t : Site σ}
    (h : relinkLast target row s = .ok row' t) : row'.map (·.id) = row.map (·.id) := by
  rcases relinkLast_eq_ok h with ⟨rfl, rfl⟩ | ⟨front, last, rfl, rfl⟩
  · rfl
  · simp

/-- All nodes of an expansion have new identities, in order. -/
theorem Expanded.issued {rule : Rule (List Letter)}
    (x : Expanded grammar params old rule s r t) : Issued s.nextId r.nodes t.nextId := by
  obtain ⟨site, hlast, ht⟩ := x.relink_eq
  have hid : t.nextId = x.afterBridge.nextId := congrArg (·.nextId) ht
  rw [hid]
  exact x.attached.issued.congr (map_id_of_relinkLast hlast)

/-! ## Passes -/

/-- A pass over a row, node by node, with what takes the place of each node and the next identity
before and after. -/
inductive Pass (grammar : Grammar) : UInt32 → List Node → List Replacement → UInt32 → Prop
  | nil (id : UInt32) : Pass grammar id [] [] id
  | carry {id id' : UInt32} {old : Node} {row : List Node} {parts : List Replacement} :
      rule? grammar old = none → Pass grammar id row parts id' →
      Pass grammar id (old :: row) (⟨[old], { carried := 1 }⟩ :: parts) id'
  | expand {id next id' : UInt32} {old : Node} {row : List Node} {part : Replacement}
      {parts : List Replacement} :
      (rule? grammar old).isSome → Issued id part.nodes next → part.tally.carried = 0 →
      Pass grammar next row parts id' → Pass grammar id (old :: row) (part :: parts) id'

/-- A pass over a row carries some nodes and grows others with new identities. -/
theorem pass_of_mapM {row : List Node} {parts : List Replacement}
    (h : (row.mapM (replace grammar params)) s = .ok parts t) :
    Pass grammar s.nextId row parts t.nextId := by
  induction row generalizing s parts with
  | nil =>
    obtain ⟨rfl, rfl⟩ := Outcome.mapM_nil_eq_ok.mp h
    exact .nil _
  | cons old row ih =>
    obtain ⟨part, r, parts', hpart, hrest, rfl⟩ := Outcome.mapM_cons_eq_ok.mp h
    obtain ⟨e, -, -, hexpand, -⟩ := replace_eq_ok hpart
    cases hrule : rule? grammar old with
    | some rule =>
      obtain ⟨x⟩ := hexpand rule hrule
      refine .expand (by rw [hrule]; rfl) x.issued ?_ (ih hrest)
      rw [x.tally_eq]
      rfl
    | none =>
      obtain ⟨rfl, -, hid⟩ := carried_of_replace hpart hrule
      have hpass := ih hrest
      rw [hid] at hpass
      exact .carry hrule hpass

/-- What a pass puts in the place of the nodes that it expands, in the order of the row. -/
def grown (grammar : Grammar) (row : List Node) (parts : List Replacement) : List Node :=
  ((row.zip parts).filter fun x => (rule? grammar x.1).isSome).flatMap (·.2.nodes)

theorem grown_cons (grammar : Grammar) (old : Node) (row : List Node) (part : Replacement)
    (parts : List Replacement) : grown grammar (old :: row) (part :: parts) =
      (if (rule? grammar old).isSome then part.nodes else []) ++ grown grammar row parts := by
  unfold grown
  rw [List.zip_cons_cons, List.filter_cons]
  split <;> rfl

namespace Pass

variable {id id' : UInt32} {row : List Node} {parts : List Replacement}

/-- The nodes that a pass makes have the next identities in the order of the row. -/
theorem issued (h : Pass grammar id row parts id') :
    Issued id (grown grammar row parts) id' := by
  induction h with
  | nil id => exact .nil id
  | carry hrule _ ih =>
    rw [grown_cons, hrule]
    exact ih
  | expand hrule hissued _ _ ih =>
    rw [grown_cons, if_pos hrule]
    exact hissued.append ih

/-- Nodes that a pass does not expand take their own place. -/
theorem nodes_of_none (h : Pass grammar id row parts id') :
    ∀ x ∈ row.zip parts, rule? grammar x.1 = none → x.2.nodes = [x.1] := by
  induction h with
  | nil => simp
  | carry hrule _ ih =>
    rw [List.zip_cons_cons, List.forall_mem_cons]
    exact ⟨fun _ => rfl, ih⟩
  | expand hrule _ _ _ ih =>
    rw [List.zip_cons_cons, List.forall_mem_cons]
    refine ⟨fun hnone => ?_, ih⟩
    rw [hnone] at hrule
    cases hrule

/-- A pass that expands no node leaves the row as it is. -/
theorem flatMap_of_none (h : Pass grammar id row parts id')
    (hnone : ∀ n ∈ row, rule? grammar n = none) : parts.flatMap (·.nodes) = row := by
  induction h with
  | nil => rfl
  | carry _ _ ih =>
    rw [List.forall_mem_cons] at hnone
    rw [List.flatMap_cons, ih hnone.2, List.singleton_append]
  | expand hrule _ _ _ _ =>
    rw [hnone _ List.mem_cons_self] at hrule
    cases hrule

theorem length_eq (h : Pass grammar id row parts id') : parts.length = row.length := by
  induction h with
  | nil => rfl
  | carry _ _ ih => rw [List.length_cons, List.length_cons, ih]
  | expand _ _ _ _ ih => rw [List.length_cons, List.length_cons, ih]

/-- A property that tells the row from the new nodes picks out the nodes that the pass does not
expand. -/
theorem filter_old (h : Pass grammar id row parts id') {P : Node → Bool}
    (hrow : ∀ n ∈ row, P n = true) (hnew : ∀ n ∈ grown grammar row parts, P n = false) :
    (parts.flatMap (·.nodes)).filter P = row.filter fun n => (rule? grammar n).isNone := by
  induction h with
  | nil => rfl
  | carry hrule _ ih =>
    rw [List.forall_mem_cons] at hrow
    rw [grown_cons, hrule] at hnew
    rw [List.flatMap_cons, List.filter_append, ih hrow.2 hnew]
    simp [hrow.1, hrule]
  | @expand id next id' old row part parts hrule hissued _ _ ih =>
    rw [List.forall_mem_cons] at hrow
    rw [grown_cons, if_pos hrule, List.forall_mem_append] at hnew
    -- neither the expanded node nor what takes its place is picked out
    have hnone : part.nodes.filter P = [] := by
      rw [List.filter_eq_nil_iff]
      intro n hn
      simp [hnew.1 n hn]
    rw [List.flatMap_cons, List.filter_append, hnone, ih hrow.2 hnew.2]
    simp [Option.isSome_iff_ne_none.mp hrule]

/-- A property that tells the new nodes from the row picks out what the pass makes. -/
theorem filter_new (h : Pass grammar id row parts id') {P : Node → Bool}
    (hrow : ∀ n ∈ row, P n = false) (hnew : ∀ n ∈ grown grammar row parts, P n = true) :
    (parts.flatMap (·.nodes)).filter P = grown grammar row parts := by
  induction h with
  | nil => rfl
  | carry hrule _ ih =>
    rw [List.forall_mem_cons] at hrow
    rw [grown_cons, hrule] at hnew
    rw [List.flatMap_cons, List.filter_append, ih hrow.2 hnew, grown_cons, hrule]
    simp [hrow.1]
  | expand hrule _ _ _ ih =>
    rw [List.forall_mem_cons] at hrow
    rw [grown_cons, if_pos hrule, List.forall_mem_append] at hnew
    rw [List.flatMap_cons, List.filter_append, ih hrow.2 hnew.2, grown_cons, if_pos hrule,
      List.filter_eq_self.mpr hnew.1]

/-- A pass counts each node that it does not expand. -/
theorem sum_carried (h : Pass grammar id row parts id') :
    (parts.map (·.tally.carried)).sum = row.countP fun n => (rule? grammar n).isNone := by
  induction h with
  | nil => rfl
  | carry hrule _ ih =>
    rw [List.map_cons, List.sum_cons, ih, List.countP_cons, hrule]
    exact Nat.add_comm ..
  | expand hrule _ hcarried _ ih =>
    rw [List.map_cons, List.sum_cons, ih, hcarried, List.countP_cons, Nat.zero_add]
    simp [Option.isNone_iff_eq_none, Option.ne_none_iff_isSome.mpr hrule]

end Pass

end Expansion

/-! ## Later states of a plant -/

namespace Plant

variable {origin : Vec} {p p' q : Plant}

/-- One generation or one frame of a plant. -/
inductive Step (p : Plant) : Plant → Prop
  | generate {σ : Type} [RandomSource σ] {p' : Plant} {tally : Tally} {s t : Surroundings σ} :
      p.generate s = .ok (p', tally) t → Step p p'
  | tick {σ : Type} [RandomSource σ] {p' : Plant} {time : Scalar} {noise : Noise}
      {marks : List Mark} {s t : Surroundings σ} :
      p.tick time noise s = .ok (p', marks) t → Step p p'

/-- A plant and its later states, by any generations and frames. -/
abbrev Becomes (q p : Plant) : Prop := Relation.ReflTransGen Step q p

theorem Reachable.step (hp : Reachable origin p) (h : Step p p') : Reachable origin p' := by
  cases h with
  | generate h => exact .generate hp h
  | tick h => exact .tick hp h

/-- What a plant becomes can be reached. -/
theorem Reachable.becomes (hq : Reachable origin q) (h : q.Becomes p) : Reachable origin p := by
  induction h with
  | refl => exact hq
  | tail _ hstep ih => exact ih.step hstep

/-- A generation is a pass over the nodes, with other names for the joints afterwards. -/
theorem Reachable.exists_pass {σ : Type} [RandomSource σ] {tally : Tally} {s t : Surroundings σ}
    (hp : Reachable origin p) (h : p.generate s = .ok (p', tally) t) :
    ∃ parts m ρ, (p.nodes.mapM (Expansion.replace p.grammar p.params))
        ⟨⟨p.skeleton, s.source⟩, p.age, p.nextId, s.journal⟩ = .ok parts m ∧
      Expansion.Pass p.grammar p.nextId p.nodes parts p'.nextId ∧
      p'.nodes = (parts.flatMap (·.nodes)).map (Node.rename ρ) := by
  obtain ⟨root, hroot⟩ := hp.sound.rooted
  obtain ⟨parts, m, ρ, hparts, -, -, hnodes, -, hid, -⟩ := exists_renamed_of_generate hroot h
  have hpass := Expansion.pass_of_mapM hparts
  rw [← hid] at hpass
  exact ⟨parts, m, ρ, hparts, hpass, hnodes⟩

/-- Identities are never given back. -/
theorem Reachable.step_nextId_le (hp : Reachable origin p) (h : Step p p') :
    p.nextId.toNat ≤ p'.nextId.toNat := by
  cases h with
  | generate h =>
    obtain ⟨parts, m, ρ, -, hpass, -⟩ := hp.exists_pass h
    rw [hpass.issued.nextId_eq]
    exact Nat.le_add_right ..
  | tick h =>
    obtain ⟨nodes, k, source, -, rfl, -⟩ := tick_eq_ok h
    exact Nat.le_refl _

/-- The next identity of a plant never falls. -/
theorem Reachable.nextId_le (hq : Reachable origin q) (h : q.Becomes p) :
    q.nextId.toNat ≤ p.nextId.toNat := by
  induction h with
  | refl => exact Nat.le_refl _
  | tail hbecomes hstep ih => exact ih.trans ((hq.becomes hbecomes).step_nextId_le hstep)

/-- Each node of a plant after a frame is one of before that has taken part in it. -/
theorem grows_of_tick {σ : Type} [RandomSource σ] {time : Scalar} {noise : Noise}
    {marks : List Mark} {s t : Surroundings σ} (h : p.tick time noise s = .ok (p', marks) t) :
    List.Forall₂ (fun n n' => ∃ (m : Moment) (e x : Joint) (mark : Option Mark) (source source' : σ),
      n.Grows m e source ⟨n', x, mark⟩ source') p.nodes p'.nodes := by
  obtain ⟨nodes, k, source, hgrow, rfl, -⟩ := tick_eq_ok h
  obtain ⟨results, hresults, rfl, -⟩ := OnSite.growAll_eq_ok hgrow
  show List.Forall₂ _ p.nodes (results.map (·.1))
  rw [List.forall₂_map_right_iff]
  refine (OnSite.grows_of_mapM hresults).imp ?_
  rintro n result ⟨e, x, source₁, source₂, hgrows⟩
  exact ⟨_, e, x, result.2, source₁, source₂, hgrows⟩

/-- A plant keeps its grammar. -/
theorem Step.grammar_eq (h : Step p p') : p'.grammar = p.grammar := by
  cases h with
  | generate h =>
    obtain ⟨next, m, c, generation, -, -, -, rfl, -⟩ := generate_eq_ok h
    rfl
  | tick h =>
    obtain ⟨nodes, k, source, -, rfl, -⟩ := tick_eq_ok h
    rfl

end Plant

end PlantGrowth
