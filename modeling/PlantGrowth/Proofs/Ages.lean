import PlantGrowth.Proofs.Draws
import PlantGrowth.Proofs.Reachable

/-!
# Depths within the age

Wherever the turtle stands in the life of a plant (`Plant.TurtleAt`), the frames of its stack are no
deeper than the age that the plant has at that moment. It stands on the ground before the letter of
the seed is read, and in a generation behind every first part of the text that is being read, for
each node in its turn; the texts need not be balanced, and the generation need not come to an end.

Two computations depend on the depth of a node and the age of its plant. The greatest turn of a new
branch is in proportion to the depth relative to the age (`Turtle.wander`), and relative depths
are between zero and one (`Turtle.relativeDepth_bounds`). The sway of a branch is asked of the flow
field with the depth and the age (`Plant.AsksFlow`), and the depth is never the greater one.
`Plant.Reachable.depths_within_age` has it all.
-/

set_option autoImplicit false

namespace PlantGrowth

namespace Plant

/-! ## Where the turtle stands -/

section TurtleAt

variable {σ : Type} [RandomSource σ]

/-- The turtle has this stack and this nursery at some moment in which the plant `p` is being made
from a letter, or its next generation from its texts, in surroundings that were `s` at first. -/
inductive TurtleAt (p : Plant) (s : Surroundings σ) : Stack → Nursery σ → Prop
  /-- Before the letter of the seed. -/
  | seed {letter : Char} {rules : Rules String} {params : GrowthParams} {origin : Vec}
      {t : Surroundings σ} :
      sprout letter rules params origin s = .ok p t →
      TurtleAt p s (.ofFrame ⟨ground, 0, 0⟩) ⟨⟨soil origin, s.source⟩, 1, 0, s.journal⟩
  /-- Behind the letters `seen` of the text for the node `old`, where the nodes `before` it have
  been replaced. -/
  | text {before after : List Node} {old : Node} {parts : List Replacement}
      {rule : Rule (List Letter)} {seen rest : List Letter} {made : List Turtle.Made}
      {stack : Stack} {u : Unit} {source : σ} {m₀ m₁ m : Nursery σ} :
      p.nodes = before ++ old :: after →
      before.mapM (Expansion.replace p.grammar p.params)
        ⟨⟨p.skeleton, s.source⟩, p.age, p.nextId, s.journal⟩ = .ok parts m₀ →
      Build.onSite (.refresh old) m₀ = .ok u m₁ →
      Expansion.rule? p.grammar old = some rule →
      rule.select m₁.site.source = .ok (seen ++ rest, source) →
      Turtle.readText p.params seen (.ofFrame ⟨old.entry, old.rotation, old.depth⟩)
        { m₁ with site := ⟨m₁.site.skeleton, source⟩ } = .ok (made, stack) m →
      TurtleAt p s stack m

/-- Where the turtle stands, no frame is deeper than the plant is old. -/
theorem TurtleAt.shallow {p : Plant} {s : Surroundings σ} {stack : Stack} {m : Nursery σ}
    (h : p.TurtleAt s stack m) (hp : ∀ n ∈ p.nodes, n.depth ≤ p.age) :
    Turtle.Shallow m.age stack := by
  cases h with
  | seed _ => exact Turtle.shallow_ofFrame UInt32.zero_le
  | @text before after old _ _ _ _ _ _ _ _ m₀ m₁ _ hnodes hbefore hrefresh _ _ hread =>
    have hmem : ∀ n ∈ before ++ old :: after, n.depth ≤ p.age := by
      intro n hn
      apply hp
      rw [hnodes]
      exact hn
    -- the nodes before the old one have raised the age, if they have changed it
    obtain ⟨hage, -⟩ := Expansion.depth_le_of_mapM hbefore
      fun n hn => hmem n (List.mem_append_left _ hn)
    obtain ⟨site, -, rfl⟩ := Build.onSite_eq_ok.mp hrefresh
    have hold : old.depth ≤ m₀.age := by
      apply UInt32.le_trans _ hage
      exact hmem old (List.mem_append_right _ List.mem_cons_self)
    -- and so does the text, letter by letter
    have hrun := Turtle.run_of_readText hread
    exact (hrun.shallow (Turtle.shallow_ofFrame hold)).2.1

end TurtleAt

/-! ## What the flow field is asked -/

/-- In a frame of the plant at this time, the flow field is asked for the turn of a branch at
depth `depth` in a plant of age `age`. That happens for the branches that growth has reached, each
behind the nodes before it. -/
inductive AsksFlow {σ : Type} [RandomSource σ] (p : Plant) (time : Scalar) (noise : Noise)
    (s : Surroundings σ) : UInt32 → UInt32 → Prop
  | ask {before after : List Node} {n : Node} {results : List (Node × Option Mark)} {b : Branch}
      {site : Site σ} {entry : Joint} {flow : FlowField} :
      p.nodes = before ++ n :: after →
      before.mapM (OnSite.growNode ⟨p.params, p.age, time, noise⟩) ⟨p.skeleton, s.source⟩ =
        .ok results site →
      site.skeleton.get? n.entry = some entry → entry.ready = true → n.kind = .branch b →
      p.params.flowField = some flow → AsksFlow p time noise s p.age n.depth

variable {origin : Vec} {p : Plant}

theorem Reachable.asksFlow_le (hp : Reachable origin p) {σ : Type} [RandomSource σ]
    {time : Scalar} {noise : Noise} {s : Surroundings σ} {age depth : UInt32}
    (h : p.AsksFlow time noise s age depth) : depth ≤ age := by
  cases h with
  | @ask before after n results b site entry flow hnodes _ _ _ _ _ =>
    apply hp.depth_le_age
    rw [hnodes]
    exact List.mem_append_right _ List.mem_cons_self

/-! ## Reachable plants -/

/-- No depth ever exceeds the age. No node of a plant is deeper than the plant is old, and neither
generations nor frames lower the age. Wherever the turtle stands, no frame of its stack is deeper
than the plant is old by then, so a branch that is made there is made at a relative depth between
zero and one. And the flow field is never asked about a branch that is deeper than its plant is
old. -/
theorem Reachable.depths_within_age (hp : Reachable origin p) :
    (∀ n ∈ p.nodes, n.depth ≤ p.age) ∧
    (∀ {σ : Type} [RandomSource σ] {s t : Surroundings σ} {p' : Plant} {tally : Tally},
      p.generate s = .ok (p', tally) t → p.age ≤ p'.age) ∧
    (∀ {σ : Type} [RandomSource σ] {time : Scalar} {noise : Noise} {s t : Surroundings σ}
      {p' : Plant} {marks : List Mark},
      p.tick time noise s = .ok (p', marks) t → p.age ≤ p'.age) ∧
    (∀ {σ : Type} [RandomSource σ] {s : Surroundings σ} {stack : Stack} {m : Nursery σ},
      p.TurtleAt s stack m → ∀ f ∈ stack.frames, f.depth ≤ m.age ∧
        0 ≤ Turtle.relativeDepth m.age f.depth ∧ Turtle.relativeDepth m.age f.depth ≤ 1) ∧
    (∀ {σ : Type} [RandomSource σ] {time : Scalar} {noise : Noise} {s : Surroundings σ}
      {age depth : UInt32}, p.AsksFlow time noise s age depth → depth ≤ age) := by
  have hdepth := hp.depth_le_age
  refine ⟨hdepth, ?_, ?_, ?_, hp.asksFlow_le⟩
  · intro σ _ s t p' tally h
    exact (depth_le_of_generate hp hdepth h).1
  · intro σ _ time noise s t p' marks h
    rw [(depth_le_of_tick hp hdepth h).1]
    exact UInt32.le_refl _
  · intro σ _ s stack m h f hf
    have hframe := h.shallow hdepth f hf
    exact ⟨hframe, Turtle.relativeDepth_bounds hframe⟩

/-- In the sapling nodes lie within brackets, and still none is deeper than it is old. -/
theorem Reachable.depths_within_age_sapling : ∃ p t, sapling ⟨⟨#[0], 0⟩, #[]⟩ = .ok p t ∧
    (∃ n ∈ p.nodes, n.depth = 1) ∧ (∀ n ∈ p.nodes, n.depth ≤ p.age) ∧
    ∀ {s : Surroundings Reel} {stack : Stack} {m : Nursery Reel}, p.TurtleAt s stack m →
      ∀ f ∈ stack.frames, f.depth ≤ m.age ∧ 0 ≤ Turtle.relativeDepth m.age f.depth ∧
        Turtle.relativeDepth m.age f.depth ≤ 1 := by
  have hok : Outcome.isOk (fun p => p.nodes.any (·.depth == 1))
      (sapling ⟨⟨#[0], 0⟩, #[]⟩) = true := by decide +kernel
  obtain ⟨p, t, h, hdeep⟩ := Outcome.exists_of_isOk hok
  obtain ⟨hnodes, -, -, hturtle, -⟩ := (reachable_of_sapling h).depths_within_age
  refine ⟨p, t, h, ?_, hnodes, fun hat => hturtle hat⟩
  simpa using hdeep

end Plant

end PlantGrowth
