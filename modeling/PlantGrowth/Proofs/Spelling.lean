import PlantGrowth.Proofs.Parentage
import PlantGrowth.Proofs.Regrowth
import PlantGrowth.Proofs.Reachable

/-!
# Plants spell words

A plant that went through generations spells a word (`Plant.Spells`): the letter it was sown with,
rewritten in each generation with the texts that the generation chose. `Spells.written` is the
invariant, that the nodes trace the word from the root joint; its steps are the sowing and
`Written.generate`.

`Spells.shows_outline` says what is to be read off such a plant. Its nodes without the bridges are
what a turtle with a stack of places sees in the word: the letters in order, the depth of each
in brackets, the letter or the root on which the turtle stood. Without random turns the
rotations up to that letter take up the turns made since, and their sum is the net number of turns
times the angle where such sums are exact.
-/

set_option autoImplicit false

namespace PlantGrowth

open Scalar

/-! ## Written grammars -/

/-- The brackets of every text match, and neither the rules nor their texts know the letter of
the bridges. -/
structure Rules.IsBracketed (rules : Rules String) : Prop where
  find?_bridge : rules.find? bridgeLetter = none
  not_mem : ∀ {c : Char} {rule : Rule String}, rules.find? c = some rule →
    ∀ text ∈ rule.texts, bridgeLetter ∉ text.toList
  closes : ∀ {c : Char} {rule : Rule String}, rules.find? c = some rule →
    ∀ text ∈ rule.texts, Word.WellBracketed text.toList

namespace Grammar

theorem contains_ofRules (rules : Rules String) (c : Char) :
    (ofRules rules).contains c = rules.contains c := by
  rw [Rules.contains, Rules.contains, ofRules, Rules.find?_map, Option.isSome_map]

/-- The texts of a described rule are described texts. -/
theorem texts_of_find? {rules : Rules String} {c : Char} {rule : Rule (List Letter)}
    (h : (ofRules rules).find? c = some rule) {text : List Letter} (htext : text ∈ rule.texts) :
    ∃ rule', rules.find? c = some rule' ∧ ∃ text' ∈ rule'.texts,
      text'.toList.map (letter rules) = text := by
  rw [ofRules, Rules.find?_map] at h
  obtain ⟨rule', hrule', rfl⟩ := Option.map_eq_some_iff.mp h
  refine ⟨rule', hrule', ?_⟩
  cases rule' with
  | fixed text' =>
    rw [List.mem_singleton.mp htext]
    exact ⟨text', List.mem_singleton_self _, rfl⟩
  | choice texts => exact List.mem_map.mp htext

theorem map_char_letter (rules : Rules String) (w : List Char) :
    (w.map (letter rules)).map (·.char) = w := by
  rw [List.map_map]
  exact List.map_id w

theorem isBracketed_ofRules {rules : Rules String} (h : rules.IsBracketed) :
    Expansion.IsBracketed (ofRules rules) where
  find?_bridge := by
    rw [ofRules, Rules.find?_map, h.find?_bridge]
    rfl
  legible := by
    intro c rule hrule text htext letter hletter
    obtain ⟨rule', hrule', text', htext', rfl⟩ := texts_of_find? hrule htext
    obtain ⟨d, hd, rfl⟩ := List.mem_map.mp hletter
    refine ⟨rfl, (contains_ofRules rules d).symm, ?_⟩
    rintro rfl
    exact h.not_mem hrule' text' htext' hd
  closes := by
    intro c rule hrule text htext
    obtain ⟨rule', hrule', text', htext', rfl⟩ := texts_of_find? hrule htext
    rw [map_char_letter]
    exact h.closes hrule' text' htext'

end Grammar

/-! ## Words of plants -/

namespace Plant

variable {σ : Type} [RandomSource σ]

/-- The texts that a generation of the plant chooses, in order. -/
def selected (p : Plant) (s : Surroundings σ) : List (List Char) :=
  (Expansion.chosen p.grammar p.params p.nodes
    ⟨⟨p.skeleton, s.source⟩, p.age, p.nextId, s.journal⟩).map fun text => text.map (·.char)

section Spells

variable (σ) (letter : Char) (rules : Rules String) (params : GrowthParams) (origin : Vec)

/-- A plant that was sown with a letter and went through any number of generations, and the word
that is the letter rewritten in each of them. -/
inductive Spells : Plant → List Char → Prop
  | sprout {s t : Surroundings σ} {p : Plant} :
      Plant.sprout letter rules params origin s = .ok p t → Spells p [letter]
  | generate {s t : Surroundings σ} {p p' : Plant} {tally : Tally} {w : List Char} :
      Spells p w → p.generate s = .ok (p', tally) t →
      Spells p' (Word.rewrite rules.contains w (p.selected s))

end Spells

/-- The nodes of the plant trace the word from the root joint. -/
structure Written (steady : Prop) (rules : Rules String) (params : GrowthParams) (origin : Vec)
    (p : Plant) (w : List Char) : Prop where
  grammar_eq : p.grammar = Grammar.ofRules rules
  params_eq : p.params = params
  ne_nil : p.nodes ≠ []
  walk : ∃ root there, Rooted origin root p.nodes p.skeleton p.nextId ∧
    Row.Traces steady (toRadians params.angle) rules.contains ⟨root, []⟩ [] w p.nodes there []

section Written

variable {steady : Prop} {letter : Char} {rules : Rules String} {params : GrowthParams}
  {origin : Vec}

theorem written_of_sprout {s t : Surroundings σ} {p : Plant}
    (h : sprout letter rules params origin s = .ok p t) (hmakes : Word.activates letter = true)
    (hletter : letter ≠ bridgeLetter) (hsteady : steady → Steady σ params) :
    Written steady rules params origin p [letter] := by
  obtain ⟨node, m, hseed, rfl, -⟩ := sprout_eq_ok h
  refine ⟨rfl, rfl, List.cons_ne_nil _ _, ground, ⟨node.exit, []⟩, rooted_of_seeded hseed, ?_⟩
  cases hseed with
  | inert hinert _ _ _ _ _ _ _ =>
    rw [Word.activates, hinert] at hmakes
    cases hmakes
  | grown _ hgrew =>
    have hlegible : Turtle.Legible rules.contains (Grammar.letter (Grammar.ofRules rules) letter) :=
      ⟨rfl, Grammar.contains_ofRules rules letter, hletter⟩
    have hstart : Turtle.Aligned steady (toRadians params.angle) id 0
        (Stack.ofFrame ⟨ground, 0, 0⟩).frames [⟨ground, []⟩] :=
      .cons ⟨rfl, rfl, fun _ => Same.refl 0⟩ .nil
    obtain ⟨hsymbol, -⟩ := hgrew.isSymbol hlegible hmakes hsteady hstart
    have hwalk := Row.Traces.symbol hsymbol (.nil _ [])
    have hname : (node.rename id).letter = letter := hgrew.letter_eq
    rw [hname] at hwalk
    exact hwalk

theorem Written.generate {p p' : Plant} {tally : Tally} {w : List Char} {s t : Surroundings σ}
    (hp : Written steady rules params origin p w) (h : p.generate s = .ok (p', tally) t)
    (hrules : rules.IsBracketed) (hsteady : steady → Steady σ params) :
    Written steady rules params origin p' (Word.rewrite rules.contains w (p.selected s)) := by
  obtain ⟨hgrammar, hparams, hne, root, there, hroot, hwalk⟩ := hp
  obtain ⟨parts, m, ρ, hparts, hnodes, hne', hroot', -, hparams', hgrammar'⟩ :=
    exists_pass_of_generate hroot hne h
  refine ⟨hgrammar'.trans hgrammar, hparams'.trans hparams, hne', ρ root, there.rename ρ,
    hroot', ?_⟩
  -- the plant has its grammar and its parameters from when it was sown
  have hcontains : rules.contains = p.grammar.contains := by
    rw [hgrammar]
    exact funext fun c => (Grammar.contains_ofRules rules c).symm
  have hbracketed : Expansion.IsBracketed p.grammar := by
    rw [hgrammar]
    exact Grammar.isBracketed_ofRules hrules
  have hstart : Rooted origin root ([] ++ p.nodes) p.skeleton p.nextId := hroot
  rw [hcontains, ← hparams] at hwalk ⊢
  rw [← hparams] at hsteady
  rw [hnodes]
  exact (hbracketed.traces_of_mapM hwalk hparts hstart hsteady).rename ρ

theorem Spells.written {p : Plant} {w : List Char}
    (h : Spells σ letter rules params origin p w) (hrules : rules.IsBracketed)
    (hmakes : Word.activates letter = true) (hletter : letter ≠ bridgeLetter) :
    Written (Steady σ params) rules params origin p w := by
  induction h with
  | sprout h => exact written_of_sprout h hmakes hletter id
  | generate _ h ih => exact ih.generate h hrules id

/-- The nodes of a plant without the bridges are what a turtle sees in the word of the plant, and
if no branch is turned at random and sums of turns are exact, the rotations from the parent to a
node add up to the net turns of the turtle. -/
theorem Spells.shows_outline {p : Plant} {w : List Char}
    (h : Spells σ letter rules params origin p w) (hrules : rules.IsBracketed)
    (hmakes : Word.activates letter = true) (hletter : letter ≠ bridgeLetter) :
    (Row.symbols p.nodes).map (·.letter) = w.filter Word.activates ∧
      List.Forall₂ (Row.Shows (Steady σ params) (toRadians params.angle) p.nodes)
        (Row.symbols p.nodes) (Word.outline w) ∧
      (Steady σ params → ∀ value : ℚ,
        Turn.Exact (toRadians params.angle) value (Word.turnCount w) →
        List.Forall₂ (fun n (e : Word.Entry) => ∀ m rs, Row.Leads p.nodes n.entry m rs →
            exactSum (rs ++ [n.rotation]) = some (Turn.net e.turns * value))
          (Row.symbols p.nodes) (Word.outline w)) := by
  obtain ⟨-, -, -, root, there, hroot, hwalk⟩ := h.written hrules hmakes hletter
  -- the turtle starts at the root joint, at which no node ends
  have hground : Row.Stands (Steady σ params) (toRadians params.angle) p.nodes ⟨root, []⟩
      ⟨none, []⟩ :=
    ⟨none, [], [], .root fun n hn => hroot.distinct.exit_ne_root hn, rfl, rfl, fun _ => .nil⟩
  have hshows : List.Forall₂ (Row.Shows (Steady σ params) (toRadians params.angle) p.nodes)
      (Row.symbols p.nodes) (Word.outline w) :=
    hwalk.shows hroot.distinct (List.nil_append _).symm hground .nil
  refine ⟨?_, hshows, ?_⟩
  · rw [Row.map_letter_of_shows hshows]
    exact Word.map_letter_outlineFrom ..
  · intro hsteady value hexact
    have hturns : ∀ e ∈ Word.outline w, e.turns.length ≤ Word.turnCount w :=
      Word.length_turns_le (Nat.zero_add _).le (by simp)
    rw [List.forall₂_iff_zip] at hshows ⊢
    refine ⟨hshows.1, ?_⟩
    intro n e hmem m rs hleads
    have hsegments := (hshows.2 hmem).segments hsteady hleads
    exact hsegments.exactSum_eq hexact (hturns e (List.of_mem_zip hmem).2)

end Written

/-- Rules by which a bud grows a second bud with two branches, and that one turns. -/
def forkRules : Rules String :=
  (Rules.empty.insert 'A' (.fixed "X[F]F")).insert 'X' (.fixed "+")

/-- One radian for a turn, and no random turns. -/
def forkParams : GrowthParams := { angle := 57.29578, branchJitter := 0, minBranchJitter := 0 }

/-- A plant with a turned fork, and the word that it spells. -/
def fork : Garden Reel (Plant × List Char) := do
  let p ← sprout 'A' forkRules forkParams ⟨0, 0⟩
  let s ← get
  let (p', _) ← p.generate
  let s' ← get
  let (p'', _) ← p'.generate
  let w := Word.rewrite forkRules.contains ['A'] (p.selected s)
  return (p'', Word.rewrite forkRules.contains w (p'.selected s'))

theorem spells_of_fork {s t : Surroundings Reel} {p : Plant} {w : List Char}
    (h : fork s = .ok (p, w) t) : Spells Reel 'A' forkRules forkParams ⟨0, 0⟩ p w := by
  simp only [fork, Outcome.bind_eq_ok, Outcome.pure_eq_ok, Outcome.get_eq_ok, Prod.mk.injEq] at h
  obtain ⟨p₀, r₀, hsprout, s₀, r₁, ⟨rfl, rfl⟩, ⟨p₁, tally⟩, r₂, hgenerate, s₁, r₃, ⟨rfl, rfl⟩,
    ⟨p₂, tally'⟩, r₄, hgenerate', ⟨rfl, rfl⟩, rfl⟩ := h
  exact .generate (.generate (.sprout hsprout) hgenerate) hgenerate'

theorem fork_eq_ok : ∃ p t, fork ⟨⟨#[0], 0⟩, #[]⟩ = .ok (p, ['+', '[', 'F', ']', 'F']) t := by
  have hok : Outcome.isOk (fun r => r.2 == ['+', '[', 'F', ']', 'F'])
      (fork ⟨⟨#[0], 0⟩, #[]⟩) = true := by decide +kernel
  obtain ⟨⟨p, w⟩, t, h, hw⟩ := Outcome.exists_of_isOk hok
  obtain rfl : w = ['+', '[', 'F', ']', 'F'] := eq_of_beq hw
  exact ⟨p, t, h⟩

theorem isBracketed_forkRules : forkRules.IsBracketed := by
  have hfind : ∀ {c : Char} {rule : Rule String}, forkRules.find? c = some rule →
      rule = .fixed "+" ∨ rule = .fixed "X[F]F" := by
    intro c rule h
    rw [forkRules, Rules.find?_insert, Rules.find?_insert] at h
    split at h
    · exact Or.inl (Option.some.inj h).symm
    · split at h
      · exact Or.inr (Option.some.inj h).symm
      · cases h
  refine ⟨by decide, ?_, ?_⟩
  · intro c rule hrule text htext
    rcases hfind hrule with rfl | rfl
    · rw [List.mem_singleton.mp htext]
      decide
    · rw [List.mem_singleton.mp htext]
      decide
  · intro c rule hrule text htext
    rcases hfind hrule with rfl | rfl
    · rw [List.mem_singleton.mp htext]
      decide
    · rw [List.mem_singleton.mp htext]
      decide

theorem steady_forkParams : Steady Reel forkParams where
  branchJitter := by decide
  minBranchJitter := by decide
  range_empty _ _ source h := ⟨source, WordSource.range_of_not_lt h source⟩

/-- One turn of one radian is exact. -/
theorem exact_forkParams : Turn.Exact (toRadians forkParams.angle) 1 1 := by
  intro turns hle
  cases turns with
  | nil => decide +kernel
  | cons turn turns =>
    obtain rfl : turns = [] := List.length_eq_zero_iff.mp (by simpa using hle)
    cases turn with
    | left => decide +kernel
    | right => decide +kernel

/-- The two branches of the fork are seen as they stand, one in brackets, both turned by one radian
against the ground. -/
theorem Spells.shows_outline_fork : ∃ p t,
    fork ⟨⟨#[0], 0⟩, #[]⟩ = .ok (p, ['+', '[', 'F', ']', 'F']) t ∧ forkRules.IsBracketed ∧
      Spells Reel 'A' forkRules forkParams ⟨0, 0⟩ p ['+', '[', 'F', ']', 'F'] ∧
      (Row.symbols p.nodes).map (·.letter) = ['F', 'F'] ∧
      List.Forall₂ (Row.Shows (Steady Reel forkParams) (toRadians forkParams.angle) p.nodes)
        (Row.symbols p.nodes) [⟨'F', 1, none, [.left]⟩, ⟨'F', 0, none, [.left]⟩] ∧
      List.Forall₂ (fun n (e : Word.Entry) => ∀ m rs, Row.Leads p.nodes n.entry m rs →
          exactSum (rs ++ [n.rotation]) = some ((Turn.net e.turns : ℚ) * 1))
        (Row.symbols p.nodes) [⟨'F', 1, none, [.left]⟩, ⟨'F', 0, none, [.left]⟩] := by
  obtain ⟨p, t, h⟩ := fork_eq_ok
  have hspells := spells_of_fork h
  obtain ⟨hletters, hshows, hsums⟩ :=
    hspells.shows_outline isBracketed_forkRules (by decide) (by decide)
  exact ⟨p, t, h, isBracketed_forkRules, hspells, hletters, hshows,
    hsums steady_forkParams 1 exact_forkParams⟩

end Plant

end PlantGrowth
