import PlantGrowth.Proofs.InStep
import PlantGrowth.Proofs.Reachable

/-!
# Plants that look the same

Two plants look the same through a view of kinds if their nodes do, their counters agree and their
skeletons have equally many joints (`Plant.SameThrough`). What the joints hold is left out. Plants
that look the same and draw from equal sources stay so in every generation, with the same tallies
and the same draws (`Plant.generate_inStep`), and so in any number of them
(`Plant.generations_inStep`). Plants sprouted from one letter look the same wherever they are sown
(`Plant.sprout_inStep`).
-/

set_option autoImplicit false

namespace PlantGrowth

open Outcome

/-- Surroundings with the same source. -/
def Surroundings.SameSource {σ : Type} (s t : Surroundings σ) : Prop := t.source = s.source

namespace Garden

variable {σ α β : Type}

/-- Constructions in step may be started on any two skeletons of one size. -/
theorem build_inStep {R : α → β → Prop} {x : Build σ α} {y : Build σ β}
    (h : InStep Nursery.Abreast R x y) {k k' : Skeleton} (hk : k'.size = k.size)
    (age nextId : UInt32) :
    InStep Surroundings.SameSource (fun r r' => R r.1 r'.1 ∧ r.2.Abreast r'.2)
      (build k age nextId x) (build k' age nextId y) := by
  intro s t hst
  have hxy := h ⟨⟨k, s.source⟩, age, nextId, s.journal⟩ ⟨⟨k', t.source⟩, age, nextId, t.journal⟩
    ⟨⟨hk, hst⟩, rfl, rfl⟩
  unfold build
  generalize x ⟨⟨k, s.source⟩, age, nextId, s.journal⟩ = o at hxy ⊢
  generalize y ⟨⟨k', t.source⟩, age, nextId, t.journal⟩ = o' at hxy ⊢
  cases hxy with
  | ok hr => exact .ok ⟨⟨hr.1, hr.2.site, hr.2.age_eq, hr.2.nextId_eq⟩, hr.2.site.source_eq⟩
  | error _ => exact .error trivial

theorem check_inStep {R : α → β → Prop} {x : Except Fault α} {y : Except Fault β}
    (h : Matched R x y) :
    InStep (Surroundings.SameSource (σ := σ)) R (check x) (check y) := by
  intro s t hst
  unfold check
  cases h with
  | ok hr => exact .ok ⟨hr, hst⟩
  | error e => exact .error trivial

theorem note_inStep (e e' : Event) :
    InStep (Surroundings.SameSource (σ := σ)) (fun _ _ => True) (note e) (note e') :=
  fun _ _ hst => .ok ⟨trivial, hst⟩

end Garden

namespace Plant

/-- Plants whose nodes look the same, with the same counters, the same grammar and equally many
joints. -/
structure SameThrough (view : Kind → Kind) (p q : Plant) : Prop where
  nodes_eq : q.nodes.map (Node.mapKind view) = p.nodes.map (Node.mapKind view)
  age_eq : q.age = p.age
  generation_eq : q.generation = p.generation
  nextId_eq : q.nextId = p.nextId
  grammar_eq : q.grammar = p.grammar
  size_eq : q.skeleton.size = p.skeleton.size

variable {view : Kind → Kind} {p q r : Plant}

theorem SameThrough.refl (view : Kind → Kind) (p : Plant) : p.SameThrough view p :=
  ⟨rfl, rfl, rfl, rfl, rfl, rfl⟩

/-- Plants that look like a third one look alike. -/
theorem SameThrough.trans (h : p.SameThrough view q) (h' : q.SameThrough view r) :
    p.SameThrough view r :=
  ⟨h'.nodes_eq.trans h.nodes_eq, h'.age_eq.trans h.age_eq, h'.generation_eq.trans h.generation_eq,
    h'.nextId_eq.trans h.nextId_eq, h'.grammar_eq.trans h.grammar_eq, h'.size_eq.trans h.size_eq⟩

theorem SameThrough.symm (h : p.SameThrough view q) : q.SameThrough view p :=
  ⟨h.nodes_eq.symm, h.age_eq.symm, h.generation_eq.symm, h.nextId_eq.symm, h.grammar_eq.symm,
    h.size_eq.symm⟩

/-- The plants look the same, and so would what the turtle grows on them. -/
structure Twins (view : Kind → Kind) (p q : Plant) : Prop where
  same : p.SameThrough view q
  params : p.params.SameThrough view q.params

section Generations

variable {σ : Type} [RandomSource σ]

/-- One generation of plants that look the same. -/
theorem generate_inStep (h : Twins view p q) :
    InStep (Surroundings.SameSource (σ := σ))
      (fun a b => Twins view a.1 b.1 ∧ b.2 = a.2) p.generate q.generate := by
  obtain ⟨params, grammar, nodes, k, age, generation, nextId⟩ := p
  obtain ⟨params', _, nodes', k', _, _, _⟩ := q
  obtain ⟨⟨hnodes, rfl, rfl, rfl, rfl, hsize⟩, hparams⟩ := h
  have hrow := Row.map_mapKind_eq_iff.mp hnodes
  refine (Garden.build_inStep (Expansion.replaceAll_inStep hparams hrow _) hsize _ _).bind ?_
  rintro ⟨next, n⟩ ⟨next', n'⟩ ⟨⟨hnext, htally⟩, hn⟩
  refine (Garden.check_inStep (Skeleton.compact_matched hn.site.size_eq hnext)).bind ?_
  intro c c' hc
  refine (Garden.check_inStep (Matched.same _)).bind ?_
  rintro _ generation rfl
  refine (Garden.note_inStep _ _).bind fun _ _ _ => .pure ⟨⟨?_, hparams⟩, htally⟩
  exact ⟨Row.map_mapKind_eq_iff.mpr hc.nodes, hn.age_eq, rfl, hn.nextId_eq, rfl, hc.size_eq⟩

/-- The plant after some generations, and their tallies. -/
def generations : Nat → Plant → Garden σ (Plant × List Tally)
  | 0, p => return (p, [])
  | count + 1, p => do
    let (p, tally) ← p.generate
    let (p, tallies) ← generations count p
    return (p, tally :: tallies)

/-- Plants that look alike go through generations in step. -/
theorem generations_inStep (count : Nat) (h : Twins view p q) :
    InStep (Surroundings.SameSource (σ := σ))
      (fun a b => Twins view a.1 b.1 ∧ b.2 = a.2) (p.generations count) (q.generations count) := by
  induction count generalizing p q with
  | zero => exact .pure ⟨h, rfl⟩
  | succ count ih =>
    refine (generate_inStep h).bind ?_
    rintro ⟨p', tally⟩ ⟨q', _⟩ ⟨hnext, rfl⟩
    refine (ih hnext).bind ?_
    rintro ⟨p'', tallies⟩ ⟨q'', _⟩ ⟨hlast, rfl⟩
    exact .pure ⟨hlast, rfl⟩

variable {params params' : GrowthParams}

/-- Seeds of one letter look alike, whatever else the parameters say. -/
theorem seed_inStep (h : params.SameThrough view params') (grammar : Grammar) (letter : Char)
    (root : JointId) :
    InStep Nursery.Abreast (Node.SameThrough view)
      (seed grammar params letter root : Build σ Node) (seed grammar params' letter root) := by
  refine (Turtle.read_inStep h _ _).bind ?_
  rintro ⟨node?, stack⟩ ⟨node?', stack'⟩ ⟨hnode, -⟩
  cases hnode with
  | some hab => exact .pure hab
  | none =>
    refine (Build.note_inStep _ _).bind fun _ _ _ => Build.freshId_inStep.bind ?_
    rintro _ id rfl
    exact Build.onSite_inStep (OnSite.attach_inStep rfl)

/-- Plants sprouted from one letter look the same, wherever they are sown. -/
theorem sprout_inStep (h : params.SameThrough view params') (letter : Char) (rules : Rules String)
    (origin origin' : Vec) :
    InStep (Surroundings.SameSource (σ := σ)) (Twins view)
      (sprout letter rules params origin : Garden σ Plant) (sprout letter rules params' origin') := by
  have hsize : (soil origin').size = (soil origin).size := rfl
  refine (Garden.build_inStep (seed_inStep (σ := σ) h _ letter _) hsize 1 0).bind ?_
  rintro ⟨a, n⟩ ⟨b, n'⟩ ⟨hab, hn⟩
  refine (Garden.note_inStep _ _).bind fun _ _ _ => .pure ⟨?_, h⟩
  exact ⟨Row.map_mapKind_eq_iff.mpr (.cons hab .nil), hn.age_eq, rfl, hn.nextId_eq, rfl,
    hn.site.size_eq⟩

end Generations

end Plant

end PlantGrowth
