import PlantGrowth.Proofs.Lengths
import PlantGrowth.Proofs.Likeness

/-!
# Frames between generations

The generations of a plant draw from one source and its frames from another (`Climate`), and frames
may come between generations in any number and order (`Phase`). A frame changes the current lengths
of branches and the joints, and nothing else of a plant (`Plant.sameThrough_of_tick`); a generation
looks at neither. So a plant is the same, but for these two, with its frames and without
(`Plant.life_filter`), and its generations count the same.

A node that a generation makes has no length yet, whatever was shown before. Right after a generation
only nodes that were carried over differ from those of a plant that was shown no frame
(`Plant.frames_unnoticed`).
-/

set_option autoImplicit false

namespace PlantGrowth

open Outcome

/-! ## What a frame changes of a plant -/

/-- The kind with a branch that has not grown yet. -/
def Kind.ungrown : Kind → Kind
  | .placeholder => .placeholder
  | .bud colour => .bud colour
  | .branch b => .branch { b with currentLength := 0 }

/-- Growth changes nothing about a branch but its length. -/
theorem Kind.ungrown_grow (b : Branch) (increment : Scalar) :
    ungrown (.branch (b.grow increment)) = ungrown (.branch b) := by
  unfold Branch.grow
  split <;> rfl

/-- A frame extends a branch and changes nothing else of a node. -/
theorem Node.Grows.sameThrough {σ : Type} [RandomSource σ] {m : Moment} {n : Node} {entry : Joint}
    {source source' : σ} {g : Grown} (h : n.Grows m entry source g source') :
    n.SameThrough Kind.ungrown g.node := by
  cases h with
  | placeholder _ => exact .refl _ _
  | budHidden _ _ _ => exact .refl _ _
  | budShown _ _ => exact .refl _ _
  | waiting _ _ => exact .refl _ _
  | reached hkind _ hadvance _ _ =>
    apply Node.sameThrough_of_kind
    rw [hkind]
    rcases Branch.advance_eq_ok hadvance with rfl | ⟨increment, rfl⟩
    · rfl
    · exact Kind.ungrown_grow _ increment

/-- A frame changes the current lengths of branches and the joints, and nothing else of a plant. -/
theorem Plant.sameThrough_of_tick {σ : Type} [RandomSource σ] {p p' : Plant} {time : Scalar}
    {noise : Noise} {marks : List Mark} {s t : Surroundings σ}
    (h : p.tick time noise s = .ok (p', marks) t) :
    p.SameThrough Kind.ungrown p' ∧ p'.params = p.params := by
  obtain ⟨nodes, k, source, hgrow, rfl, -⟩ := tick_eq_ok h
  obtain ⟨results, hresults, rfl, -⟩ := OnSite.growAll_eq_ok hgrow
  refine ⟨⟨Row.map_mapKind_eq_iff.mpr ?_, rfl, rfl, rfl, rfl, OnSite.size_of_growAll hgrow⟩, rfl⟩
  rw [List.forall₂_map_right_iff]
  exact (OnSite.grows_of_mapM hresults).imp fun _ _ ⟨_, _, _, _, hgrows⟩ => hgrows.sameThrough

/-! ## Nodes that a generation makes -/

/-- The turtle grows no branch that has a length already. -/
theorem Turtle.yields_ungrown (σ : Type) [RandomSource σ] (params : GrowthParams) :
    Turtle.Yields σ params fun kind => kind.ungrown = kind where
  placeholder := rfl
  shape := by
    intro age frame action source source' rotation kind h
    cases action with
    | branch =>
      simp only [shape, sproutBranch, Outcome.except_bind_eq_ok, Outcome.except_pure_eq_ok,
        Prod.mk.injEq] at h
      obtain ⟨⟨⟨rotation', b⟩, -⟩, ⟨⟨turn, r₁⟩, -, ⟨factor, r₂⟩, -, ⟨leaf, r₃⟩, -,
        ⟨-, rfl⟩, -⟩, ⟨-, rfl⟩, -⟩ := h
      rfl
    | bud =>
      simp only [shape, Outcome.except_bind_eq_ok, Outcome.except_pure_eq_ok,
        Prod.mk.injEq] at h
      obtain ⟨⟨colour, r⟩, -, ⟨-, rfl⟩, -⟩ := h
      rfl
    | _ =>
      simp only [shape, Outcome.except_pure_eq_ok, Prod.mk.injEq] at h
      obtain ⟨⟨-, rfl⟩, -⟩ := h
      rfl

/-- Where nodes without a length are new, rows that look the same differ only in nodes that are
not. -/
theorem Row.id_mem_of_ne {row row' : List Node} {ids : List UInt32}
    (h : List.Forall₂ (Node.SameThrough Kind.ungrown) row row')
    (hrow : ∀ n ∈ row, n.id ∈ ids ∨ n.kind.ungrown = n.kind)
    (hrow' : ∀ n ∈ row', n.id ∈ ids ∨ n.kind.ungrown = n.kind) :
    List.Forall₂ (fun n n' : Node => n' ≠ n → n.id ∈ ids) row row' := by
  have hboth := (List.forall₂_and_left _ _).mpr
    ⟨hrow', ((List.forall₂_and_left _ _).mpr ⟨hrow, h⟩).flip⟩
  refine hboth.flip.imp ?_
  rintro n n' ⟨hn', hn, hsame⟩ hne
  obtain ⟨kind, hkind, rfl⟩ := hsame.exists_kind
  by_contra hnew
  -- both kinds are without a length, so what the view shows of them is all there is
  have hshort : kind.ungrown = kind := hn'.resolve_left hnew
  have hshort' : n.kind.ungrown = n.kind := hn.resolve_left hnew
  have heq : kind = n.kind := hshort.symm.trans (hkind.trans hshort')
  exact hne (by rw [heq])

section Generations

variable {σ : Type} [RandomSource σ] {params : GrowthParams} {Q : Kind → Prop}

/-- The nodes of a generation are those that were there before, by their identities, and nodes of
kinds that the turtle yields. -/
theorem Plant.id_mem_or_kind_of_generate {origin : Vec} {p p' : Plant} {tally : Tally}
    {s t : Surroundings σ} (hQ : Turtle.Yields σ p.params Q) (hp : Plant.Reachable origin p)
    (h : p.generate s = .ok (p', tally) t) :
    ∀ n ∈ p'.nodes, n.id ∈ p.nodes.map (·.id) ∨ Q n.kind := by
  obtain ⟨root, hroot⟩ := hp.sound.rooted
  obtain ⟨parts, m, ρ, hparts, -, -, hnodes, -⟩ := exists_renamed_of_generate hroot h
  intro n hn
  rw [hnodes] at hn
  obtain ⟨a, ha, rfl⟩ := List.mem_map.mp hn
  -- another name for a handle changes neither the identity nor the kind
  show a.id ∈ p.nodes.map (·.id) ∨ Q a.kind
  exact (Expansion.mem_or_kind_of_mapM hQ hparts a ha).imp_left List.mem_map_of_mem

end Generations

/-! ## Lives of plants -/

/-- The surroundings in which generations happen, and those in which frames are shown. -/
structure Climate (σ τ : Type) where
  ground : Surroundings σ
  air : Surroundings τ

namespace Climate

variable {σ τ α : Type}

/-- A computation on the ground. -/
def onGround (x : Garden σ α) : EStateM Fault (Climate σ τ) α := fun s =>
  match x s.ground with
  | .ok a ground => .ok a { s with ground }
  | .error e ground => .error e { s with ground }

/-- A computation in the air. -/
def inAir (x : Garden τ α) : EStateM Fault (Climate σ τ) α := fun s =>
  match x s.air with
  | .ok a air => .ok a { s with air }
  | .error e air => .error e { s with air }

theorem onGround_eq_ok {x : Garden σ α} {a : α} {s t : Climate σ τ} :
    onGround x s = .ok a t ↔ ∃ ground, x s.ground = .ok a ground ∧ { s with ground } = t := by
  cases h : x s.ground <;> simp [onGround, h, and_assoc]

theorem inAir_eq_ok {x : Garden τ α} {a : α} {s t : Climate σ τ} :
    inAir x s = .ok a t ↔ ∃ air, x s.air = .ok a air ∧ { s with air } = t := by
  cases h : x s.air <;> simp [inAir, h, and_assoc]

end Climate

/-- What happens to a plant: it goes to its next generation, or a frame of it is shown. -/
inductive Phase where
  | generation
  | frame (time : Scalar) (noise : Noise)

def Phase.isGeneration : Phase → Bool
  | .generation => true
  | .frame _ _ => false

namespace Plant

variable {σ τ : Type} [RandomSource σ] [RandomSource τ]

/-- The plant after a phase, and the tally of a generation. -/
def live (phase : Phase) (p : Plant) : EStateM Fault (Climate σ τ) (Plant × List Tally) :=
  match phase with
  | .generation => do
    let (p, tally) ← Climate.onGround p.generate
    return (p, [tally])
  | .frame time noise => do
    let (p, _) ← Climate.inAir (p.tick time noise)
    return (p, [])

/-- The plant after some phases, and the tallies of the generations among them. -/
def life : List Phase → Plant → EStateM Fault (Climate σ τ) (Plant × List Tally)
  | [], p => return (p, [])
  | phase :: phases, p => do
    let (p, now) ← live phase p
    let (p, later) ← life phases p
    return (p, now ++ later)

/-- A generation draws from the source of the ground. -/
theorem live_generation_eq_ok {p p' : Plant} {tallies : List Tally} {s t : Climate σ τ} :
    live .generation p s = .ok (p', tallies) t ↔ ∃ tally ground,
      p.generate s.ground = .ok (p', tally) ground ∧ [tally] = tallies ∧
      { s with ground } = t := by
  simp only [live, Outcome.bind_eq_ok, Outcome.pure_eq_ok, Climate.onGround_eq_ok, Prod.mk.injEq]
  constructor
  · rintro ⟨⟨_, tally⟩, r, ⟨ground, h, rfl⟩, ⟨rfl, rfl⟩, rfl⟩
    exact ⟨tally, ground, h, rfl, rfl⟩
  · rintro ⟨tally, ground, h, rfl, rfl⟩
    exact ⟨⟨p', tally⟩, _, ⟨ground, h, rfl⟩, ⟨rfl, rfl⟩, rfl⟩

/-- A frame draws from the source of the air, and leaves the ground alone. -/
theorem live_frame_eq_ok {p p' : Plant} {time : Scalar} {noise : Noise} {tallies : List Tally}
    {s t : Climate σ τ} :
    live (.frame time noise) p s = .ok (p', tallies) t ↔ ∃ marks air,
      p.tick time noise s.air = .ok (p', marks) air ∧ [] = tallies ∧ { s with air } = t := by
  simp only [live, Outcome.bind_eq_ok, Outcome.pure_eq_ok, Climate.inAir_eq_ok, Prod.mk.injEq]
  constructor
  · rintro ⟨⟨_, marks⟩, r, ⟨air, h, rfl⟩, ⟨rfl, rfl⟩, rfl⟩
    exact ⟨marks, air, h, rfl, rfl⟩
  · rintro ⟨marks, air, h, rfl, rfl⟩
    exact ⟨⟨p', marks⟩, _, ⟨air, h, rfl⟩, ⟨rfl, rfl⟩, rfl⟩

/-- A life goes on from the plant and the climate that its first phase leaves behind. -/
theorem life_cons_eq_ok {phase : Phase} {phases : List Phase} {p p' : Plant}
    {tallies : List Tally} {s t : Climate σ τ} :
    life (phase :: phases) p s = .ok (p', tallies) t ↔ ∃ q now r later,
      live phase p s = .ok (q, now) r ∧ life phases q r = .ok (p', later) t ∧
      now ++ later = tallies := by
  simp only [life, Outcome.bind_eq_ok, Outcome.pure_eq_ok, Prod.mk.injEq]
  constructor
  · rintro ⟨⟨q, now⟩, r, h, ⟨_, later⟩, _, h', ⟨rfl, rfl⟩, rfl⟩
    exact ⟨q, now, r, later, h, h', rfl⟩
  · rintro ⟨q, now, r, later, h, h', rfl⟩
    exact ⟨⟨q, now⟩, r, h, ⟨p', later⟩, t, h', ⟨rfl, rfl⟩, rfl⟩

/-- Every plant in the course of a life can be reached. -/
theorem Reachable.life {origin : Vec} {phases : List Phase} {p p' : Plant} {tallies : List Tally}
    {s t : Climate σ τ} (hp : Reachable origin p) (h : life phases p s = .ok (p', tallies) t) :
    Reachable origin p' := by
  induction phases generalizing p tallies s with
  | nil =>
    obtain ⟨hresult, -⟩ := Outcome.pure_eq_ok.mp h
    cases hresult
    exact hp
  | cons phase phases ih =>
    obtain ⟨q, now, r, later, hlive, hlife, -⟩ := life_cons_eq_ok.mp h
    cases phase with
    | generation =>
      obtain ⟨tally, ground, hgenerate, -, -⟩ := live_generation_eq_ok.mp hlive
      exact ih (.generate hp hgenerate) hlife
    | frame time noise =>
      obtain ⟨marks, air, htick, -, -⟩ := live_frame_eq_ok.mp hlive
      exact ih (.tick hp htick) hlife

/-- A plant whose life has a result has one without its frames as well: the plants look the same,
and their generations count the same and take the same draws. -/
theorem life_filter {phases : List Phase} {p q p' : Plant} {tallies : List Tally}
    {s s' t : Climate σ τ} (hpq : Twins Kind.ungrown p q) (hst : s.ground.SameSource t.ground)
    (h : life phases p s = .ok (p', tallies) s') :
    ∃ q' t', life (phases.filter Phase.isGeneration) q t = .ok (q', tallies) t' ∧
      Twins Kind.ungrown p' q' ∧ s'.ground.SameSource t'.ground ∧ t'.air = t.air := by
  induction phases generalizing p q tallies s t with
  | nil =>
    obtain ⟨hresult, rfl⟩ := Outcome.pure_eq_ok.mp h
    cases hresult
    exact ⟨q, t, rfl, hpq, hst, rfl⟩
  | cons phase phases ih =>
    obtain ⟨p₁, now, s₁, later, hlive, hlife, rfl⟩ := life_cons_eq_ok.mp h
    cases phase with
    | generation =>
      obtain ⟨tally, ground, hgenerate, rfl, rfl⟩ := live_generation_eq_ok.mp hlive
      obtain ⟨⟨q₁, _⟩, ground', hgenerate', ⟨hnext, rfl⟩, hsource⟩ :=
        (generate_inStep hpq s.ground t.ground hst).exists_of_ok hgenerate
      obtain ⟨q', t', hrest, hlast⟩ := ih (t := { t with ground := ground' }) hnext hsource hlife
      refine ⟨q', t', life_cons_eq_ok.mpr ⟨q₁, _, _, later, ?_, hrest, rfl⟩, hlast⟩
      exact live_generation_eq_ok.mpr ⟨_, ground', hgenerate', rfl, rfl⟩
    | frame time noise =>
      obtain ⟨marks, air, htick, rfl, rfl⟩ := live_frame_eq_ok.mp hlive
      obtain ⟨hsame, hparams⟩ := sameThrough_of_tick htick
      exact ih (s := { s with air }) ⟨hsame.symm.trans hpq.same, hparams ▸ hpq.params⟩ hst hlife

/-- A plant from its letter through some phases, and the tallies of its generations. -/
def biography (letter : Char) (rules : Rules String) (params : GrowthParams) (origin : Vec)
    (phases : List Phase) : EStateM Fault (Climate σ τ) (Plant × List Tally) := do
  (← Climate.onGround (sprout letter rules params origin)).life phases

theorem biography_eq_ok {letter : Char} {rules : Rules String} {params : GrowthParams}
    {origin : Vec} {phases : List Phase} {p : Plant} {tallies : List Tally} {s t : Climate σ τ} :
    biography letter rules params origin phases s = .ok (p, tallies) t ↔ ∃ q ground,
      sprout letter rules params origin s.ground = .ok q ground ∧
      q.life phases { s with ground } = .ok (p, tallies) t := by
  simp only [biography, Outcome.bind_eq_ok, Climate.onGround_eq_ok]
  constructor
  · rintro ⟨q, r, ⟨ground, h, rfl⟩, hlife⟩
    exact ⟨q, ground, h, hlife⟩
  · rintro ⟨q, ground, h, hlife⟩
    exact ⟨q, _, ⟨ground, h, rfl⟩, hlife⟩

/-- No frame of a plant is noticed by its later generations. If a plant goes through any phases and
then a generation, so it does without the frames among them, with the same tallies and the same
draws from the source of the generations. The two plants are the same but for the current lengths of
branches and what the joints hold, and a node that differs at all was there before the last
generation. Nor does any frame change anything else of any plant. -/
theorem frames_unnoticed {letter : Char} {rules : Rules String} {params : GrowthParams}
    {origin : Vec} {phases : List Phase} {s t : Climate σ τ} {p p' : Plant} {tallies : List Tally}
    {tally : Tally} {ground : Surroundings σ}
    (hlife : biography letter rules params origin phases s = .ok (p, tallies) t)
    (hlast : p.generate t.ground = .ok (p', tally) ground) :
    (∃ q u q' ground',
      biography letter rules params origin (phases.filter Phase.isGeneration) s =
        .ok (q, tallies) u ∧
      q.generate u.ground = .ok (q', tally) ground' ∧ ground'.source = ground.source ∧
      u.air = s.air ∧ p'.SameThrough Kind.ungrown q' ∧
      List.Forall₂ (fun n n' : Node => n' ≠ n → n.id ∈ p.nodes.map (·.id)) p'.nodes q'.nodes) ∧
    ∀ (r r' : Plant) (time : Scalar) (noise : Noise) (marks : List Mark) (v w : Surroundings τ),
      r.tick time noise v = .ok (r', marks) w →
      r.SameThrough Kind.ungrown r' ∧ r'.params = r.params := by
  refine ⟨?_, fun _ _ _ _ _ _ _ => sameThrough_of_tick⟩
  obtain ⟨seedling, soil, hsprout, hphases⟩ := biography_eq_ok.mp hlife
  have htwins : Twins Kind.ungrown seedling seedling := ⟨.refl _ _, .refl _ _⟩
  obtain ⟨q, u, hwithout, hpq, hsource, hair⟩ := life_filter htwins rfl hphases
  obtain ⟨⟨q', _⟩, ground', hgenerate, ⟨hnext, rfl⟩, hsource'⟩ :=
    (generate_inStep hpq t.ground u.ground hsource).exists_of_ok hlast
  refine ⟨q, u, q', ground', biography_eq_ok.mpr ⟨seedling, soil, hsprout, hwithout⟩, hgenerate,
    hsource', hair, hnext.same, ?_⟩
  have hreach : Reachable origin p := (Reachable.sprout hsprout).life hphases
  have hreach' : Reachable origin q := (Reachable.sprout hsprout).life hwithout
  have hids : q.nodes.map (·.id) = p.nodes.map (·.id) := by
    have hmap := congrArg (List.map (·.id)) hpq.same.nodes_eq
    rwa [List.map_map, List.map_map] at hmap
  have hmade := id_mem_or_kind_of_generate (Turtle.yields_ungrown σ _) hreach hlast
  have hmade' := id_mem_or_kind_of_generate (Turtle.yields_ungrown σ _) hreach' hgenerate
  rw [hids] at hmade'
  exact Row.id_mem_of_ne (Row.map_mapKind_eq_iff.mp hnext.same.nodes_eq) hmade hmade'

/-- Rules with a choice of texts, whose branches are carried over. -/
def hedge : Rules String := .ofList [('X', .choice ["G[+X]X", "GX"])]

/-- A hedge is not noticed to have grown for two frames between its generations. -/
theorem frames_unnoticed_hedge : ∃ (p p' : Plant) (tallies : List Tally) (tally : Tally)
    (s t : Climate Reel Reel) (ground : Surroundings Reel),
    biography 'X' hedge {} ⟨0, 0⟩ [.generation, .frame 0 (.constant 0), .frame 16 (.constant 1)] s =
      .ok (p, tallies) t ∧
    p.generate t.ground = .ok (p', tally) ground ∧
    (p'.branches.any fun b => 0 < b.currentLength) = true ∧
    (∃ q u q' ground',
      biography 'X' hedge {} ⟨0, 0⟩ [.generation] s = .ok (q, tallies) u ∧
      q.generate u.ground = .ok (q', tally) ground' ∧ ground'.source = ground.source ∧
      u.air = s.air ∧ p'.SameThrough Kind.ungrown q' ∧
      List.Forall₂ (fun n n' : Node => n' ≠ n → n.id ∈ p.nodes.map (·.id)) p'.nodes q'.nodes) ∧
    ∀ (r r' : Plant) (time : Scalar) (noise : Noise) (marks : List Mark)
      (v w : Surroundings Reel), r.tick time noise v = .ok (r', marks) w →
      r.SameThrough Kind.ungrown r' ∧ r'.params = r.params := by
  have hok : Outcome.isOk (fun p' => p'.branches.any fun b => 0 < b.currentLength)
      ((do
        let (p, _) ← biography 'X' hedge {} ⟨0, 0⟩
          [.generation, .frame 0 (.constant 0), .frame 16 (.constant 1)]
        let (p', _) ← Climate.onGround p.generate
        return p' : EStateM Fault (Climate Reel Reel) Plant)
        ⟨⟨⟨#[0, 0xffffffff], 0⟩, #[]⟩, ⟨⟨#[7], 0⟩, #[]⟩⟩) = true := by decide +kernel
  obtain ⟨p', s', h, hlong⟩ := Outcome.exists_of_isOk hok
  simp only [Outcome.bind_eq_ok, Outcome.pure_eq_ok, Climate.onGround_eq_ok] at h
  obtain ⟨⟨p, tallies⟩, t, hlife, ⟨p', tally⟩, _, ⟨ground, hlast, rfl⟩, rfl, rfl⟩ := h
  have hfilter : [Phase.generation, .frame 0 (.constant 0), .frame 16 (.constant 1)].filter
      Phase.isGeneration = [.generation] := rfl
  have hunnoticed := frames_unnoticed hlife hlast
  rw [hfilter] at hunnoticed
  exact ⟨p, p', tallies, tally, _, t, ground, hlife, hlast, hlong, hunnoticed⟩

end Plant

end PlantGrowth
