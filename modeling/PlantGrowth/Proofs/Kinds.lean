import PlantGrowth.Proofs.Raising

/-!
# Kinds of new nodes

All nodes of a raised plant were grown by the turtle or put in as placeholders, and no generation
changes the kind of a node that it carries over. So a property of kinds that the turtle keeps
whatever it draws (`Turtle.Yields`) holds of all nodes of a raised plant
(`Species.kinds_of_raise`).
-/

set_option autoImplicit false

namespace PlantGrowth

namespace Expansion

/-- Only the last node of a row gets another exit. -/
theorem relinkLast_eq_ok {σ : Type} {target : JointId} {row row' : List Node} {s t : Site σ}
    (h : relinkLast target row s = .ok row' t) :
    row = [] ∧ row' = [] ∨
      ∃ front last, row = front ++ [last] ∧ row' = front ++ [{ last with exit := target }] := by
  rcases List.eq_nil_or_concat row with rfl | ⟨front, last, rfl⟩
  · exact Or.inl ⟨rfl, (Outcome.pure_eq_ok.mp h).1.symm⟩
  · rw [List.concat_eq_append] at h ⊢
    obtain ⟨last', hlink, rfl⟩ := relinkLast_concat_eq_ok h
    refine Or.inr ⟨front, last, rfl, ?_⟩
    by_cases hne : target = last.exit
    · simp only [OnSite.relink, if_pos hne, Outcome.pure_eq_ok] at hlink
      obtain ⟨rfl, -⟩ := hlink
      rw [hne]
    · obtain ⟨-, -, rfl, -⟩ := OnSite.relink_eq_ok hne hlink
      rfl

/-- What holds of all nodes of a row whatever their exits still holds when the last exit moves. -/
theorem forall_of_relinkLast {σ : Type} {P : Node → Prop} {target : JointId} {row row' : List Node}
    {s t : Site σ} (h : relinkLast target row s = .ok row' t)
    (hP : ∀ (n : Node) (exit : JointId), P n → P { n with exit }) (hrow : ∀ n ∈ row, P n) :
    ∀ n ∈ row', P n := by
  rcases relinkLast_eq_ok h with ⟨-, rfl⟩ | ⟨front, last, rfl, rfl⟩
  · simp
  · intro n hn
    rw [List.mem_append, List.mem_singleton] at hn
    rcases hn with hn | rfl
    · exact hrow n (List.mem_append_left _ hn)
    · exact hP last target (hrow last (by simp))

theorem Bridged.isBridge {σ : Type} {grammar : Grammar} {made : List Turtle.Made} {stack : Stack}
    {s t : Nursery σ} {bridges : List Node} (h : Bridged grammar made stack s bridges t) {b : Node}
    (hb : b ∈ bridges) : IsBridge grammar stack.top s b t := by
  cases h with
  | unneeded _ => cases hb
  | needed _ hbridge =>
    rw [List.mem_singleton.mp hb]
    exact hbridge

theorem Bridged.age_eq {σ : Type} {grammar : Grammar} {made : List Turtle.Made} {stack : Stack}
    {s t : Nursery σ} {bridges : List Node} (h : Bridged grammar made stack s bridges t) :
    t.age = s.age := by
  cases h with
  | unneeded _ => rfl
  | needed _ hbridge => exact hbridge.age_eq

end Expansion

/-- A property of all kinds of nodes that the turtle grows, whatever it draws. -/
structure Turtle.Yields (σ : Type) [RandomSource σ] (params : GrowthParams)
    (Q : Kind → Prop) : Prop where
  placeholder : Q .placeholder
  shape {age : UInt32} {frame : Frame} {action : Action} {source source' : σ}
    {rotation : Scalar} {kind : Kind} :
    Turtle.shape params age frame action source = .ok ((rotation, kind), source') → Q kind

section Kinds

variable {σ : Type} [RandomSource σ] {params : GrowthParams} {Q : Kind → Prop}

/-- What holds of all kinds that the turtle yields holds of what it grows from a text. -/
theorem Turtle.Run.kinds (hQ : Turtle.Yields σ params Q) {text : List Letter}
    {stack stack' : Stack} {s t : Nursery σ} {made : List Turtle.Made}
    (h : Turtle.Run params text stack s made stack' t) : ∀ m ∈ made, Q m.node.kind := by
  induction h with
  | nil => simp
  | silent _ _ ih => exact ih
  | grow hstep _ ih =>
    cases hstep with
    | grow _ hgrew =>
      intro m hm
      rcases List.mem_cons.mp hm with rfl | hm
      · exact hQ.shape hgrew.shape_eq
      · exact ih m hm

namespace Expansion

/-- It holds of the nodes of an expansion too, for bridges are placeholders. -/
theorem Expanded.kinds (hQ : Turtle.Yields σ params Q) {grammar : Grammar} {old : Node}
    {rule : Rule (List Letter)} {s t : Nursery σ} {r : Replacement}
    (x : Expanded grammar params old rule s r t) : ∀ n ∈ r.nodes, Q n.kind := by
  have hraw : ∀ n ∈ x.raw, Q n.kind := by
    intro n hn
    rcases List.mem_append.mp hn with hn | hn
    · obtain ⟨m, hm, rfl⟩ := List.mem_map.mp hn
      exact x.run.kinds hQ m hm
    · rw [(x.bridged.isBridge hn).kind_eq]
      exact hQ.placeholder
  obtain ⟨site, hlast, -⟩ := x.relink_eq
  exact forall_of_relinkLast hlast (fun n exit hn => hn) hraw

/-- What holds of the nodes of every expansion holds of all nodes after a pass but those that the
pass does not expand. -/
theorem mem_or_of_mapM {P : Node → Prop} {grammar : Grammar}
    (hP : ∀ {old : Node} {rule : Rule (List Letter)} {s t : Nursery σ} {r : Replacement},
      rule? grammar old = some rule → Expanded grammar params old rule s r t → ∀ n ∈ r.nodes, P n)
    {row : List Node} {s t : Nursery σ} {parts : List Replacement}
    (h : (row.mapM (replace grammar params)) s = .ok parts t) :
    ∀ n ∈ parts.flatMap (·.nodes), n ∈ row ∧ rule? grammar n = none ∨ P n := by
  induction row generalizing s parts with
  | nil =>
    obtain ⟨rfl, -⟩ := Outcome.mapM_nil_eq_ok.mp h
    simp
  | cons old row ih =>
    obtain ⟨r, u, parts', hr, hrest, rfl⟩ := Outcome.mapM_cons_eq_ok.mp h
    obtain ⟨e, -, -, hexpand, hcarry⟩ := replace_eq_ok hr
    rw [List.flatMap_cons, List.forall_mem_append]
    constructor
    · cases hrule : rule? grammar old with
      | some rule =>
        obtain ⟨x⟩ := hexpand rule hrule
        exact fun n hn => Or.inr (hP hrule x n hn)
      | none =>
        rw [(hcarry hrule).1, List.forall_mem_singleton]
        exact Or.inl ⟨List.mem_cons_self, hrule⟩
    · exact fun n hn =>
        (ih hrest n hn).imp_left fun hkept => ⟨List.mem_cons_of_mem old hkept.1, hkept.2⟩

/-- A pass carries nodes over and makes nodes of kinds that the turtle yields. -/
theorem mem_or_kind_of_mapM (hQ : Turtle.Yields σ params Q) {grammar : Grammar} {row : List Node}
    {s t : Nursery σ} {parts : List Replacement}
    (h : (row.mapM (replace grammar params)) s = .ok parts t) :
    ∀ n ∈ parts.flatMap (·.nodes), n ∈ row ∨ Q n.kind :=
  fun n hn => (mem_or_of_mapM (fun _ x => x.kinds hQ) h n hn).imp_left And.left

theorem kinds_of_mapM (hQ : Turtle.Yields σ params Q) {grammar : Grammar} {row : List Node}
    {s t : Nursery σ} {parts : List Replacement}
    (h : (row.mapM (replace grammar params)) s = .ok parts t) (hrow : ∀ n ∈ row, Q n.kind) :
    ∀ n ∈ parts.flatMap (·.nodes), Q n.kind :=
  fun n hn => (mem_or_kind_of_mapM hQ h n hn).elim (hrow n) id

end Expansion

/-- A generation keeps a property of kinds that the turtle keeps. -/
theorem Plant.kinds_of_generate {origin : Vec} {p p' : Plant} {tally : Tally}
    {s t : Surroundings σ} (hQ : Turtle.Yields σ p.params Q) (hp : Plant.Reachable origin p)
    (hkinds : ∀ n ∈ p.nodes, Q n.kind) (h : p.generate s = .ok (p', tally) t) :
    ∀ n ∈ p'.nodes, Q n.kind := by
  obtain ⟨root, hroot⟩ := hp.sound.rooted
  obtain ⟨parts, m, ρ, hparts, -, -, hnodes, -⟩ := exists_renamed_of_generate hroot h
  have hnew := Expansion.kinds_of_mapM hQ hparts hkinds
  intro n hn
  rw [hnodes] at hn
  obtain ⟨m, hm, rfl⟩ := List.mem_map.mp hn
  exact hnew m hm

/-- It holds of the seed. -/
theorem Plant.kinds_of_sprout {letter : Char} {rules : Rules String} {origin : Vec}
    {s t : Surroundings σ} {p : Plant} (hQ : Turtle.Yields σ params Q)
    (h : Plant.sprout letter rules params origin s = .ok p t) : ∀ n ∈ p.nodes, Q n.kind := by
  obtain ⟨node, m, hseed, rfl, -⟩ := sprout_eq_ok h
  intro n hn
  rw [List.mem_singleton.mp hn]
  cases hseed with
  | grown _ hgrew => exact hQ.shape hgrew.shape_eq
  | inert _ _ _ _ _ _ _ hkind =>
    rw [hkind]
    exact hQ.placeholder

theorem Species.kinds_of_raise {s : Species} {settings : Settings} {origin : Vec} {v : Variation}
    {t t' : Surroundings σ} {p : Plant} (hQ : Turtle.Yields σ (s.params settings v) Q)
    (h : s.raise settings origin v t = .ok (.ok p) t') : ∀ n ∈ p.nodes, Q n.kind := by
  have hrun := Species.raise_induction (P := fun p => p.params = s.params settings v ∧
    ∀ n ∈ p.nodes, Q n.kind) h ?_ ?_
  · exact hrun.2.2
  · intro p r r' hsprout
    refine ⟨?_, Plant.kinds_of_sprout hQ hsprout⟩
    obtain ⟨-, -, -, rfl, -⟩ := Plant.sprout_eq_ok hsprout
    rfl
  · rintro p p' tally r r' hreach ⟨hparams, hkinds⟩ hgenerate
    obtain ⟨next, m, c, generation, -, -, -, hp', -⟩ := Plant.generate_eq_ok hgenerate
    refine ⟨?_, Plant.kinds_of_generate (hparams ▸ hQ) hreach hkinds hgenerate⟩
    rw [hp']
    exact hparams

end Kinds

end PlantGrowth
