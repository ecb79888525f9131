import PlantGrowth.Proofs.Identities
import PlantGrowth.Proofs.Nesting

/-!
# Nodes as their letters describe them

What a node is, and whether the next generation replaces it, is settled when the node is made, and
the letter says both: the grammar has a rule for it or not, and it stands for one action of the
turtle (`Node.Fits`). Only the placeholder that is put in for a first letter without a node does not
fit, and it is alone in its plant. Everything that a generation makes fits
(`Expansion.fits_of_mapM`), so a plant stays as its letters describe it (`Plant.Described.becomes`)
and the turtle's brackets and turns are never nodes of it.

A generation therefore replaces exactly the nodes whose letters have rules. The others are still
there afterwards in the same order, unchanged but for the names of their joints
(`Plant.Becomes.letters_describe`).
-/

set_option autoImplicit false

namespace PlantGrowth

/-! ## Kinds and actions -/

/-- The action of the turtle that makes nodes of a kind. -/
def Kind.action : Kind → Action
  | .placeholder => .placeholder
  | .bud _ => .bud
  | .branch _ => .branch

/-- Every kind of node is made by an action that makes nodes. -/
theorem Kind.makesNode_action (kind : Kind) : kind.action.makesNode = true := by
  cases kind <;> rfl

/-- The node is of the kind that its letter stands for. -/
def Node.Fits (n : Node) : Prop := n.kind.action = .ofLetter n.letter

/-- A node that fits is no turn and no bracket. -/
theorem Node.Fits.letter_not_mem {n : Node} (h : n.Fits) : n.letter ∉ ['+', '-', '[', ']'] := by
  have hmakes : (Action.ofLetter n.letter).makesNode = true := by
    rw [← h]
    exact n.kind.makesNode_action
  have hother : ∀ {c : Char}, (Action.ofLetter c).makesNode = false → n.letter ≠ c := by
    rintro c hc rfl
    rw [hc] at hmakes
    cases hmakes
  simp only [List.mem_cons, List.not_mem_nil, or_false, not_or]
  exact ⟨hother rfl, hother rfl, hother rfl, hother rfl⟩

namespace Turtle

variable {σ : Type} [RandomSource σ] {params : GrowthParams}

/-- The kind of a node tells the action that grew it. -/
theorem action_of_shape {age : UInt32} {frame : Frame} {action : Action} {source source' : σ}
    {rotation : Scalar} {kind : Kind} (hmakes : action.makesNode = true)
    (h : shape params age frame action source = .ok ((rotation, kind), source')) :
    kind.action = action := by
  cases action with
  | bud =>
    simp only [shape, Outcome.except_bind_eq_ok, Outcome.except_pure_eq_ok, Prod.mk.injEq] at h
    obtain ⟨⟨leaf, source₁⟩, -, ⟨-, rfl⟩, -⟩ := h
    rfl
  | branch =>
    simp only [shape, Outcome.except_bind_eq_ok, Outcome.except_pure_eq_ok, Prod.mk.injEq] at h
    obtain ⟨⟨⟨turned, b⟩, source₁⟩, -, ⟨-, rfl⟩, -⟩ := h
    rfl
  | placeholder =>
    cases h
    rfl
  | turnLeft => cases hmakes
  | turnRight => cases hmakes
  | save => cases hmakes
  | restore => cases hmakes

/-- The turtle grows nodes of the kinds that their letters ask for. -/
theorem Grew.fits {letter : Letter} {stack stack' : Stack} {s t : Nursery σ} {node : Node}
    (h : Grew params letter stack s node stack' t) (hmakes : letter.action.makesNode = true)
    (hletter : letter.action = .ofLetter letter.char) : node.Fits := by
  show node.kind.action = .ofLetter node.letter
  rw [action_of_shape hmakes h.shape_eq, h.letter_eq, hletter]

/-- All nodes made while reading a text are of the kinds that their letters ask for. -/
theorem Run.fits {text : List Letter} {stack stack' : Stack} {s t : Nursery σ} {made : List Made}
    (h : Run params text stack s made stack' t)
    (htext : ∀ letter ∈ text, letter.action = .ofLetter letter.char) :
    ∀ n ∈ made.map (·.node), n.Fits := by
  induction h with
  | nil => simp
  | silent _ _ ih => exact ih fun letter hletter => htext letter (List.mem_cons_of_mem _ hletter)
  | grow hstep _ ih =>
    rw [List.forall_mem_cons] at htext
    rw [List.map_cons, List.forall_mem_cons]
    cases hstep with
    | grow hmakes hgrew => exact ⟨hgrew.fits hmakes htext.1, ih htext.2⟩

end Turtle

namespace Expansion

variable {σ : Type} [RandomSource σ] {grammar : Grammar} {params : GrowthParams}

omit [RandomSource σ] in
/-- The letter of a bridge asks for a placeholder, and that is what a bridge is. -/
theorem IsBridge.fits {frame : Frame} {s t : Nursery σ} {b : Node}
    (h : IsBridge grammar frame s b t) : b.Fits := by
  show b.kind.action = .ofLetter b.letter
  rw [h.kind_eq, h.letter_eq]
  decide

theorem Expanded.fits {old : Node} {rule : Rule (List Letter)} {s t : Nursery σ} {r : Replacement}
    (x : Expanded grammar params old rule s r t) (hact : grammar.ActsByLetter)
    (hrule : rule? grammar old = some rule) : ∀ n ∈ r.nodes, n.Fits := by
  have htext := forall_letter_of_select x.select_eq (hact (find?_of_rule? hrule))
  have hraw : ∀ n ∈ x.raw, n.Fits := by
    intro n hn
    rcases List.mem_append.mp hn with hn | hn
    · exact x.run.fits htext n hn
    · exact (x.bridged.isBridge hn).fits
  obtain ⟨site, hlast, -⟩ := x.relink_eq
  exact forall_of_relinkLast hlast (fun n exit hn => hn) hraw

/-- All that a pass makes fits. -/
theorem fits_of_mapM (hact : grammar.ActsByLetter) {row : List Node} {s t : Nursery σ}
    {parts : List Replacement} (h : (row.mapM (replace grammar params)) s = .ok parts t) :
    ∀ n ∈ parts.flatMap (·.nodes), n ∈ row ∧ rule? grammar n = none ∨ n.Fits :=
  mem_or_of_mapM (fun hrule x => x.fits hact hrule) h

end Expansion

/-! ## Plants -/

/-- A frame does not turn a node into one of another kind. -/
theorem Node.Grows.action_eq {σ : Type} [RandomSource σ] {m : Moment} {n : Node} {entry : Joint}
    {source source' : σ} {g : Grown} (h : n.Grows m entry source g source') :
    g.node.kind.action = n.kind.action := by
  cases h with
  | placeholder _ => rfl
  | budHidden _ _ _ => rfl
  | budShown _ _ => rfl
  | waiting _ _ => rfl
  | reached hkind _ _ _ _ =>
    rw [hkind]
    rfl

namespace Plant

variable {σ : Type} [RandomSource σ] {origin : Vec} {letter : Char} {rules : Rules String}
  {p p' : Plant} {s t : Surroundings σ}

/-- The plant is a placeholder for a first letter that grows no node. -/
def IsInert (letter : Char) (p : Plant) : Prop :=
  (Action.ofLetter letter).makesNode = false ∧
    ∃ n, p.nodes = [n] ∧ n.id = 0 ∧ n.letter = letter ∧ n.kind = .placeholder

/-- The nodes of a plant fit, unless it still has only the placeholder for its first letter. -/
structure Described (letter : Char) (rules : Rules String) (p : Plant) : Prop where
  grammar_eq : p.grammar = .ofRules rules
  fits : (∀ n ∈ p.nodes, n.Fits) ∨ p.IsInert letter

/-- A seed is described by its letter, and is a placeholder if the letter makes no node. -/
theorem described_of_sprout {params : GrowthParams}
    (h : sprout letter rules params origin s = .ok p t) : p.Described letter rules := by
  obtain ⟨node, m, hseed, rfl, -⟩ := sprout_eq_ok h
  refine ⟨rfl, ?_⟩
  cases hseed with
  | grown hmakes hgrew => exact Or.inl (List.forall_mem_singleton.mpr (hgrew.fits hmakes rfl))
  | inert hmakes hatt hletter _ _ _ _ hkind =>
    refine Or.inr ⟨hmakes, node, rfl, ?_, hletter, hkind⟩
    cases hatt with
    | cons _ hid _ _ _ => exact hid

/-- A generation leaves nodes behind that the rules describe, be they new or carried. -/
theorem Described.generate {tally : Tally} (hd : p.Described letter rules)
    (hp : Reachable origin p) (h : p.generate s = .ok (p', tally) t) :
    p'.Described letter rules := by
  obtain ⟨parts, m, ρ, hparts, hpass, hnodes⟩ := hp.exists_pass h
  refine ⟨(Step.generate h).grammar_eq.trans hd.grammar_eq, ?_⟩
  have hact : p.grammar.ActsByLetter := by
    rw [hd.grammar_eq]
    exact Grammar.actsByLetter_ofRules rules
  have hmade := Expansion.fits_of_mapM hact hparts
  -- other names of the joints leave letter and kind alone
  have hrenamed : (∀ n ∈ parts.flatMap (·.nodes), n.Fits) → ∀ n ∈ p'.nodes, n.Fits := by
    intro hfits n hn
    rw [hnodes] at hn
    obtain ⟨old, hold, rfl⟩ := List.mem_map.mp hn
    exact hfits old hold
  rcases hd.fits with hfits | ⟨hmakes, n, hone, hid, hletter, hkind⟩
  · exact Or.inl (hrenamed fun n hn => (hmade n hn).elim (fun hkept => hfits n hkept.1) id)
  · rw [hone] at hpass hmade
    cases hrule : Expansion.rule? p.grammar n with
    | none =>
      -- the placeholder is carried over
      rw [hpass.flatMap_of_none (List.forall_mem_singleton.mpr hrule)] at hnodes
      exact Or.inr ⟨hmakes, n.rename ρ, hnodes, hid, hletter, hkind⟩
    | some rule =>
      refine Or.inl (hrenamed fun new hnew => (hmade new hnew).resolve_left ?_)
      rintro ⟨hmem, hnone⟩
      rw [List.mem_singleton.mp hmem, hrule] at hnone
      cases hnone

theorem Described.tick {time : Scalar} {noise : Noise} {marks : List Mark}
    (hd : p.Described letter rules) (h : p.tick time noise s = .ok (p', marks) t) :
    p'.Described letter rules := by
  have hgrows := grows_of_tick h
  refine ⟨(Step.tick h).grammar_eq.trans hd.grammar_eq, ?_⟩
  rcases hd.fits with hfits | ⟨hmakes, n, hone, hid, hletter, hkind⟩
  · refine Or.inl fun n' hn' => ?_
    obtain ⟨n, hn, m, e, x, mark, source, source', hgrew⟩ := exists_of_forall₂ hgrows hn'
    show n'.kind.action = .ofLetter n'.letter
    rw [hgrew.register_eq.2.1, hgrew.action_eq]
    exact hfits n hn
  · rw [hone] at hgrows
    cases hnext : p'.nodes with
    | nil =>
      rw [hnext] at hgrows
      cases hgrows
    | cons n' rest =>
      rw [hnext] at hgrows
      obtain ⟨⟨m, e, x, mark, source, source', hgrew⟩, hrest⟩ := List.forall₂_cons.mp hgrows
      cases hrest
      cases hgrew with
      | placeholder _ => exact Or.inr ⟨hmakes, n, hnext, hid, hletter, hkind⟩
      | budHidden hbud _ _ => rw [hkind] at hbud; cases hbud
      | budShown hbud _ => rw [hkind] at hbud; cases hbud
      | waiting hbranch _ => rw [hkind] at hbranch; cases hbranch
      | reached hbranch _ _ _ _ => rw [hkind] at hbranch; cases hbranch

/-- Both kinds of steps keep a description. -/
theorem Described.step (hd : p.Described letter rules) (hp : Reachable origin p)
    (h : Step p p') : p'.Described letter rules := by
  cases h with
  | generate h => exact hd.generate hp h
  | tick h => exact hd.tick h

/-- A plant stays as its letters describe it. -/
theorem Described.becomes {q : Plant} (hd : q.Described letter rules) (hq : Reachable origin q)
    (h : q.Becomes p) : p.Described letter rules := by
  induction h with
  | refl => exact hd
  | tail hbecomes hstep ih => exact ih.step (hq.becomes hbecomes) hstep

/-! ## Generations -/

/-- A generation counts the nodes that it expands and those that it does not. -/
theorem tally_of_generate {tally : Tally} (h : p.generate s = .ok (p', tally) t) :
    tally.replaced = p.nodes.countP (fun n => (Expansion.rule? p.grammar n).isSome) ∧
      tally.carried = p.nodes.countP fun n => (Expansion.rule? p.grammar n).isNone := by
  obtain ⟨next, m, c, generation, hnext, -, -, -, rfl, -⟩ := generate_eq_ok h
  obtain ⟨-, hreplaced⟩ := Expansion.size_of_replaceAll hnext
  obtain ⟨parts, hparts, -, htally⟩ := Expansion.replaceAll_eq_ok hnext
  refine ⟨hreplaced, ?_⟩
  have hcarried := (Tally.counts_of_total htally).2
  rw [List.map_map] at hcarried
  exact hcarried.trans (Expansion.pass_of_mapM hparts).sum_carried

/-- The nodes of the next generation that were there before are those that are not expanded, in the
same order and unchanged but for the names of their joints. -/
theorem Reachable.exists_filter_of_generate {tally : Tally} (hp : Reachable origin p)
    (h : p.generate s = .ok (p', tally) t) :
    ∃ ρ, p'.nodes.filter (fun n => n.id ∈ p.nodes.map (·.id)) =
      (p.nodes.filter fun n => (Expansion.rule? p.grammar n).isNone).map (Node.rename ρ) := by
  obtain ⟨parts, m, ρ, -, hpass, hnodes⟩ := hp.exists_pass h
  refine ⟨ρ, ?_⟩
  rw [hnodes, List.filter_map]
  refine congrArg (List.map (Node.rename ρ)) (hpass.filter_old ?_ ?_)
  · intro n hn
    have hmem : n.id ∈ p.nodes.map (·.id) := List.mem_map_of_mem hn
    exact decide_eq_true hmem
  · intro n hn
    refine decide_eq_false fun hmem => ?_
    obtain ⟨old, hold, he⟩ := List.mem_map.mp hmem
    have hlow : p.nextId.toNat ≤ n.id.toNat := hpass.issued.le_id hn
    have hhigh := (hp.registered.nodes old hold).lt_hi
    rw [he] at hhigh
    exact absurd hlow (Nat.not_le.mpr hhigh)

/-- No node of the next generation has the identity of one that is expanded. -/
theorem Reachable.id_ne_of_generate {tally : Tally} (hp : Reachable origin p)
    (h : p.generate s = .ok (p', tally) t) {n n' : Node} (hn : n ∈ p.nodes)
    (hrule : (Expansion.rule? p.grammar n).isSome) (hn' : n' ∈ p'.nodes) : n'.id ≠ n.id := by
  intro he
  obtain ⟨ρ, hkept⟩ := hp.exists_filter_of_generate h
  have hmem : n' ∈ p'.nodes.filter fun n => n.id ∈ p.nodes.map (·.id) := by
    rw [List.mem_filter, he]
    exact ⟨hn', decide_eq_true (List.mem_map_of_mem hn)⟩
  rw [hkept] at hmem
  obtain ⟨old, hold, rfl⟩ := List.mem_map.mp hmem
  obtain ⟨hold, hnone⟩ := List.mem_filter.mp hold
  -- a survivor with the identity of the node is the node
  obtain rfl : old = n := List.inj_on_of_nodup_map hp.nodup_id hold hn he
  rw [Option.isNone_iff_eq_none] at hnone
  rw [hnone] at hrule
  cases hrule

/-- Letters describe the nodes of a plant, from its first letter on and through any generations and
frames. A node has a rule if and only if its letter has one, and it is of the kind that its letter
stands for, so that no node is a turn or a bracket; only a first letter that grows no node leaves
one placeholder in its place. A generation replaces the nodes whose letters have rules. All other
nodes, and no more, stay in the plant in the same order and as they are. -/
theorem Becomes.letters_describe {params : GrowthParams} {seedling : Plant}
    (hsprout : sprout letter rules params origin s = .ok seedling t) (h : seedling.Becomes p) :
    p.grammar = .ofRules rules ∧
    (∀ n ∈ p.nodes, n.hasRule = rules.contains n.letter) ∧
    ((∀ n ∈ p.nodes, n.kind.action = .ofLetter n.letter ∧ n.letter ∉ ['+', '-', '[', ']']) ∨
      (Action.ofLetter letter).makesNode = false ∧
        ∃ n, p.nodes = [n] ∧ n.id = 0 ∧ n.letter = letter ∧ n.kind = .placeholder) ∧
    ∀ (τ : Type) [RandomSource τ] (s t : Surroundings τ) (p' : Plant) (tally : Tally),
      p.generate s = .ok (p', tally) t →
      (∀ n ∈ p.nodes, Expansion.rule? p.grammar n = p.grammar.find? n.letter) ∧
      (∀ n ∈ p.nodes, rules.contains n.letter = true → ∀ n' ∈ p'.nodes, n'.id ≠ n.id) ∧
      (∃ ρ, p'.nodes.filter (fun n => n.id ∈ p.nodes.map (·.id)) =
        (p.nodes.filter fun n => !rules.contains n.letter).map (Node.rename ρ)) ∧
      tally.replaced = p.nodes.countP (fun n => rules.contains n.letter) ∧
      tally.carried = p.nodes.countP (fun n => !rules.contains n.letter) ∧
      tally.replaced + tally.carried = p.nodes.length := by
  have hseedling : Reachable origin seedling := .sprout hsprout
  have hp : Reachable origin p := hseedling.becomes h
  have hd : p.Described letter rules := (described_of_sprout hsprout).becomes hseedling h
  have hcontains : ∀ c, p.grammar.contains c = rules.contains c := by
    intro c
    rw [hd.grammar_eq]
    exact Grammar.contains_ofRules rules c
  have hrule : ∀ n ∈ p.nodes, n.hasRule = rules.contains n.letter := by
    intro n hn
    rw [← hcontains]
    exact (hp.registered.nodes n hn).hasRule_eq
  refine ⟨hd.grammar_eq, hrule, hd.fits.imp_left fun hfits n hn => ?_, ?_⟩
  · exact ⟨hfits n hn, (hfits n hn).letter_not_mem⟩
  · intro τ _ s t p' tally hgenerate
    -- what the pass asks of a node is what the rules say of its letter
    have hsome : ∀ n ∈ p.nodes, (Expansion.rule? p.grammar n).isSome = rules.contains n.letter := by
      intro n hn
      rw [hp.rule?_isSome hn, hrule n hn]
    have hnone : ∀ n ∈ p.nodes, (Expansion.rule? p.grammar n).isNone = !rules.contains n.letter := by
      intro n hn
      rw [← Option.not_isSome, hsome n hn]
    obtain ⟨hreplaced, hcarried⟩ := tally_of_generate hgenerate
    rw [List.countP_congr fun n hn => by rw [hsome n hn]] at hreplaced
    rw [List.countP_congr fun n hn => by rw [hnone n hn]] at hcarried
    obtain ⟨ρ, hkept⟩ := hp.exists_filter_of_generate hgenerate
    rw [List.filter_congr hnone] at hkept
    refine ⟨fun n hn => Expansion.rule?_eq_find? (hp.registered.nodes n hn).hasRule_eq, ?_,
      ⟨ρ, hkept⟩, hreplaced, hcarried, ?_⟩
    · intro n hn hruled n' hn'
      exact hp.id_ne_of_generate hgenerate hn ((hsome n hn).trans hruled) hn'
    · rw [hreplaced, hcarried, List.length_eq_countP_add_countP fun n => rules.contains n.letter]
      simp

/-- Rules for a branch, for the letter of the bridges, and for a bracket. -/
def wicket : Rules String :=
  Rules.ofList [('F', .fixed "]F[X+"), (':', .fixed "+F:-"), ('[', .fixed "F")]

/-- The letters of a wicket describe it, and its next generation replaces some nodes and keeps
others. -/
theorem Becomes.letters_describe_wicket :
    ∃ (seedling p p' : Plant) (tally : Tally) (t₀ t t' : Surroundings Reel),
    sprout 'F' wicket {} ⟨0, 0⟩ ⟨(⟨#[0], 0⟩ : Reel), #[]⟩ = .ok seedling t₀ ∧
    seedling.Becomes p ∧ p.generate t = .ok (p', tally) t' ∧
    tally.replaced ≠ 0 ∧ tally.carried ≠ 0 ∧ p.grammar = .ofRules wicket ∧
    (∀ n ∈ p.nodes, n.hasRule = wicket.contains n.letter) ∧
    ((∀ n ∈ p.nodes, n.kind.action = .ofLetter n.letter ∧ n.letter ∉ ['+', '-', '[', ']']) ∨
      (Action.ofLetter 'F').makesNode = false ∧
        ∃ n, p.nodes = [n] ∧ n.id = 0 ∧ n.letter = 'F' ∧ n.kind = .placeholder) ∧
    (∀ n ∈ p.nodes, Expansion.rule? p.grammar n = p.grammar.find? n.letter) ∧
    (∀ n ∈ p.nodes, wicket.contains n.letter = true → ∀ n' ∈ p'.nodes, n'.id ≠ n.id) ∧
    (∃ ρ, p'.nodes.filter (fun n => n.id ∈ p.nodes.map (·.id)) =
      (p.nodes.filter fun n => !wicket.contains n.letter).map (Node.rename ρ)) ∧
    tally.replaced = p.nodes.countP (fun n => wicket.contains n.letter) ∧
    tally.carried = p.nodes.countP (fun n => !wicket.contains n.letter) ∧
    tally.replaced + tally.carried = p.nodes.length := by
  have hok : Outcome.isOk (fun r => r.2.replaced != 0 && r.2.carried != 0)
      ((do
        let seedling ← sprout 'F' wicket {} ⟨0, 0⟩
        let first ← seedling.generate
        let frame ← first.1.tick 0 fun _ _ _ => .ok 0
        frame.1.generate : Garden Reel (Plant × Tally))
        ⟨⟨#[0], 0⟩, #[]⟩) = true := by
    decide +kernel
  obtain ⟨⟨p', tally⟩, t', h, hcounts⟩ := Outcome.exists_of_isOk hok
  simp only [Outcome.bind_eq_ok] at h
  obtain ⟨seedling, t₀, hsprout, ⟨q, tally₁⟩, t₁, hgenerate, ⟨p, marks⟩, t₂, htick, hnext⟩ := h
  simp only [Bool.and_eq_true, bne_iff_ne] at hcounts
  have hbecomes : seedling.Becomes p := .tail (.single (.generate hgenerate)) (.tick htick)
  obtain ⟨hgrammar, hrule, hfits, hgeneration⟩ := Becomes.letters_describe hsprout hbecomes
  exact ⟨seedling, p, p', tally, t₀, t₂, _, hsprout, hbecomes, hnext, hcounts.1, hcounts.2,
    hgrammar, hrule, hfits, hgeneration Reel t₂ _ p' tally hnext⟩

end Plant

end PlantGrowth
