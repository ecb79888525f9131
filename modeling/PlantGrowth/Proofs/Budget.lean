import PlantGrowth.Proofs.Faultless
import PlantGrowth.Proofs.Lengths
import PlantGrowth.Proofs.Spelling
import PlantGrowth.Species.Preset

/-!
# Budgets of raised plants

A plant that has gone through some generations with texts of at most `L` letters has counters within
`budget L` of these generations (`Plant.OnBudget`), which is the sum of a geometric series. A
generation fails only where a counter is exhausted. So what passes its checks is raised to a plant
unless that happens on the way (`Species.raise_faultless`), which it cannot do while the budget of
the species fits into a word; no preset comes that far (`Species.raise_preset`).

This takes settings with which the length and the turn of a branch can be drawn
(`Settings.Drawable`). The checks of the settings do not see to it (`Species.raise_unbounded`).
-/

set_option autoImplicit false

namespace PlantGrowth

open Scalar

/-! ## Texts -/

/-- Length of the longest text. -/
def Rules.longest (g : Rules String) : Nat :=
  ((g.entries.flatMap fun r => r.2.texts).map fun text => text.toList.length).foldr max 0

theorem Grammar.textsWithin_longest (rules : Rules String) :
    (Grammar.ofRules rules).TextsWithin rules.longest := by
  intro letter rule hrule text htext
  obtain ⟨rule', hrule', text', htext', rfl⟩ := texts_of_find? hrule htext
  obtain ⟨front, back, hentries, -⟩ := List.lookup_eq_some_iff.mp hrule'
  have hentry : (letter, rule') ∈ rules.entries := by
    rw [hentries]
    simp
  have hmem : text' ∈ rules.entries.flatMap fun r => r.2.texts :=
    List.mem_flatMap.mpr ⟨(letter, rule'), hentry, htext'⟩
  rw [List.length_map]
  exact List.le_max_of_le (List.mem_map_of_mem hmem) (Nat.le_refl _)

/-! ## Generations -/

/-- The most that a counter of a plant reaches in so many generations with texts of at most `L`
letters: every node may give way to as many nodes as the text has letters, and a bridge. -/
def budget (L generations : Nat) : Nat := ∑ i ∈ Finset.range (generations + 1), (L + 1) ^ i

theorem budget_zero (L : Nat) : budget L 0 = 1 := by
  simp [budget]

/-- One generation adds what its nodes can take at most. -/
theorem budget_succ (L generations : Nat) :
    budget L (generations + 1) = budget L generations + (L + 1) ^ generations * (L + 1) := by
  rw [budget, Finset.sum_range_succ, Nat.pow_succ]
  rfl

theorem budget_mono (L : Nat) : Monotone (budget L) :=
  monotone_nat_of_le_succ fun generations => by
    rw [budget_succ]
    exact Nat.le_add_right ..

namespace Plant

variable {σ : Type} [WordSource σ] {origin : Vec} {p p' : Plant} {s t : Surroundings σ} {e : Fault}
  {L : Nat}

/-- The counters are within the budget for the generations of the plant. -/
def OnBudget (L : Nat) (p : Plant) : Prop :=
  p.Within (budget L p.generation.toNat) ((L + 1) ^ p.generation.toNat)

/-- A seed is within the budget of no generation. -/
theorem onBudget_of_sprout {letter : Char} {rules : Rules String} {params : GrowthParams}
    (h : sprout letter rules params origin s = .ok p t) : p.generation = 0 ∧ p.OnBudget L := by
  have hwithin := within_of_sprout h
  obtain ⟨node, m, -, rfl, -⟩ := sprout_eq_ok h
  exact ⟨rfl, by simpa [OnBudget, budget_zero] using hwithin⟩

/-- A generation takes a plant from one budget to the next. -/
theorem onBudget_of_generate {tally : Tally} (hp : Reachable origin p)
    (hL : p.grammar.TextsWithin L) (hpL : p.OnBudget L) (h : p.generate s = .ok (p', tally) t) :
    p'.generation.toNat = p.generation.toNat + 1 ∧ p'.OnBudget L := by
  have hwithin := within_of_generate hp hL hpL h
  obtain ⟨next, m, c, generation, -, -, hgeneration, rfl, -⟩ := generate_eq_ok h
  have hone : (1 : UInt32).toNat = 1 := rfl
  have hcount : generation.toNat = p.generation.toNat + 1 := addWord_ok hgeneration
  refine ⟨hcount, ?_⟩
  rw [OnBudget]
  dsimp only
  rw [hcount, budget_succ, Nat.pow_succ]
  exact hwithin

end Plant

namespace Species

variable {σ : Type} [WordSource σ] {s : Species} {origin : Vec} {p : Plant}
  {t t' : Surroundings σ} {e : Fault} {L : Nat}

omit [WordSource σ] in
theorem noteUnbalanced_ne_error (s : Species) (p : Plant) (tally : Tally) :
    s.noteUnbalanced p tally t ≠ .error e t' := by
  unfold noteUnbalanced
  split
  · exact Garden.note_eq_error.mp
  · exact Outcome.pure_eq_error.mp

/-- Further generations fail only where a counter is exhausted in one of them, and never if their
budget fits into a word. -/
theorem exhausted_of_generateTimes {count : Nat} (hreach : Plant.Reachable origin p)
    (hparams : p.params.Drawable) (hL : p.grammar.TextsWithin L) (hp : p.OnBudget L)
    (hcount : p.generation.toNat + count < UInt32.size)
    (h : s.generateTimes count p t = .error e t') :
    e = .addOverflow ∧ UInt32.size ≤ budget L (p.generation.toNat + count) ∧
      ∃ k < count, ∃ q r, s.generateTimes k p t = .ok q r ∧ q.Exhausted L r := by
  induction count generalizing p t with
  | zero => exact absurd h Outcome.pure_eq_error.mp
  | succ count ih =>
    rw [generateTimes_succ] at h
    simp only [Outcome.bind_eq_error] at h
    rcases h with h | ⟨⟨p', tally⟩, r, hgenerate, h | ⟨u, r', hnote, h⟩⟩
    · obtain ⟨he, ⟨hexhausted, hsize⟩ | hlast⟩ :=
        Plant.exhausted_of_generate hreach hparams hL hp h
      · rw [← budget_succ] at hsize
        refine ⟨he, hsize.trans (budget_mono L (by omega)), 0, Nat.succ_pos count, p, t, ?_,
          hexhausted⟩
        exact Outcome.pure_eq_ok.mpr ⟨rfl, rfl⟩
      · -- the generations themselves are counted without overflow
        omega
    · exact absurd h (noteUnbalanced_ne_error s p' tally)
    · obtain ⟨hnext, hp'⟩ := Plant.onBudget_of_generate hreach hL hp hgenerate
      have hreach' := Plant.Reachable.generate hreach hgenerate
      have hgenerate' := hgenerate
      obtain ⟨next, m, c, generation, -, -, -, rfl, -⟩ := Plant.generate_eq_ok hgenerate
      obtain ⟨he, hsize, k, hk, q, r'', hrest, hexhausted⟩ :=
        ih hreach' hparams hL hp' (by omega) h
      rw [hnext, Nat.add_right_comm, Nat.add_assoc] at hsize
      refine ⟨he, hsize, k + 1, Nat.succ_lt_succ hk, q, r'', ?_, hexhausted⟩
      rw [generateTimes_succ]
      simp only [Outcome.bind_eq_ok]
      exact ⟨_, r, hgenerate', u, r', hnote, hrest⟩

end Species

/-! ## Raised plants -/

/-- Settings with which every draw of the turtle can be made: the interval of the length jitter and
that of the greatest turn have finite ends and widths, if they are not empty. -/
structure Settings.Drawable (s : Settings) : Prop where
  length : Samplable s.lengthJitter.1 s.lengthJitter.2
  turn : Samplable (-maxNum s.branchJitter s.minBranchJitter)
    (maxNum s.branchJitter s.minBranchJitter)

namespace Species

section Run

variable {σ : Type} [RandomSource σ] {s : Species} {settings : Settings} {origin : Vec}
  {v : Variation} {t t' : Surroundings σ}

/-- A plant of the species as it is after `count` of its generations. -/
def raiseTo (s : Species) (settings : Settings) (origin : Vec) (v : Variation) (count : Nat) :
    Garden σ Plant := do
  let seedling ← Plant.sprout s.seed s.rules (s.params settings v) origin
  s.generateTimes count seedling

/-- Whatever passes its checks is taken through all its generations. -/
theorem raise_of_checks (hs : s.validate = .ok ()) (hsettings : settings.validate = .ok ()) :
    (s.raise settings origin v : Garden σ (Except ConfigError Plant)) = (do
      let count := s.generations settings
      let plant ← s.raiseTo settings origin v count.toNat
      Garden.note (.raised s.name count plant.nodes.length plant.age)
      return .ok plant) := by
  unfold raise raiseTo
  rw [hs, hsettings]
  simp only [bind_assoc]
  rfl

/-- A species and settings that pass their checks are never refused later on. -/
theorem exists_of_raise_eq_ok {raised : Except ConfigError Plant} (hs : s.validate = .ok ())
    (hsettings : settings.validate = .ok ()) (h : s.raise settings origin v t = .ok raised t') :
    ∃ p, raised = .ok p := by
  rw [raise_of_checks hs hsettings] at h
  simp only [Outcome.bind_eq_ok, Outcome.pure_eq_ok] at h
  obtain ⟨p, r, -, u, r', -, rfl, -⟩ := h
  exact ⟨p, rfl⟩

end Run

variable {σ : Type} [WordSource σ] {s : Species} {settings : Settings} {origin : Vec}
  {v : Variation} {t t' : Surroundings σ} {e : Fault}

omit [WordSource σ] in
/-- Settings whose intervals can be sampled give parameters whose intervals can. -/
theorem drawable_params (haccepted : settings.Accepted) (h : settings.Drawable) :
    (s.params settings v).Drawable where
  length := h.length
  branchJitter := haccepted.branchJitter.1
  turn := h.turn
  palette := Palette.drawable_shift _

/-- What passes its checks fails to be raised only where a counter is exhausted in one of its
generations, and never if its budget fits into a word. -/
theorem exhausted_of_raise (hs : s.validate = .ok ()) (hsettings : settings.validate = .ok ())
    (hdrawable : settings.Drawable) (h : s.raise settings origin v t = .error e t') :
    e = .addOverflow ∧ UInt32.size ≤ budget s.rules.longest (s.generations settings).toNat ∧
      ∃ k < (s.generations settings).toNat, ∃ p r,
        s.raiseTo settings origin v k t = .ok p r ∧ p.Exhausted s.rules.longest r := by
  have hparams : (s.params settings v).Drawable :=
    drawable_params (Settings.validate_eq_ok.mp hsettings) hdrawable
  rw [raise_of_checks hs hsettings] at h
  simp only [raiseTo, Outcome.bind_eq_error, Outcome.pure_eq_error, Garden.note_eq_error,
    and_false, exists_false, or_false] at h
  rcases h with h | ⟨seedling, r, hsprout, h⟩
  · exact absurd h (Plant.sprout_ne_error hparams)
  · obtain ⟨hzero, hbudget⟩ := Plant.onBudget_of_sprout (L := s.rules.longest) hsprout
    have hreach := Plant.Reachable.sprout hsprout
    have hstart : seedling.params = s.params settings v ∧
        seedling.grammar = Grammar.ofRules s.rules := by
      obtain ⟨node, m, -, rfl, -⟩ := Plant.sprout_eq_ok hsprout
      exact ⟨rfl, rfl⟩
    have hcount : seedling.generation.toNat + (s.generations settings).toNat < UInt32.size := by
      rw [hzero, show (0 : UInt32).toNat = 0 from rfl, Nat.zero_add]
      exact (s.generations settings).toNat_lt
    obtain ⟨he, hsize, k, hk, p, r', hrun, hexhausted⟩ := exhausted_of_generateTimes hreach
      (hstart.1 ▸ hparams) (hstart.2 ▸ Grammar.textsWithin_longest s.rules) hbudget hcount h
    rw [hzero, show (0 : UInt32).toNat = 0 from rfl, Nat.zero_add] at hsize
    refine ⟨he, hsize, k, hk, p, r', ?_, hexhausted⟩
    rw [raiseTo, Outcome.bind_eq_ok]
    exact ⟨seedling, r, hsprout, hrun⟩

/-- Where every draw can be made, what passes its checks is raised to a plant, whatever the words of
the source. The only other end is that a counter of 32 bits is exhausted in one of the generations,
and it takes a budget that exceeds a word. -/
theorem raise_faultless (hs : s.validate = .ok ()) (hsettings : settings.validate = .ok ())
    (hdrawable : settings.Drawable) (origin : Vec) (v : Variation) (t : Surroundings σ) :
    (∃ p t', s.raise settings origin v t = .ok (.ok p) t') ∨
      (∃ t', s.raise settings origin v t = .error .addOverflow t') ∧
        UInt32.size ≤ budget s.rules.longest (s.generations settings).toNat ∧
        ∃ k < (s.generations settings).toNat, ∃ p r,
          s.raiseTo settings origin v k t = .ok p r ∧ p.Exhausted s.rules.longest r := by
  cases h : s.raise settings origin v t with
  | ok raised t' =>
    obtain ⟨p, rfl⟩ := exists_of_raise_eq_ok hs hsettings h
    exact Or.inl ⟨p, t', rfl⟩
  | error e t' =>
    obtain ⟨rfl, hexhausted⟩ := exhausted_of_raise hs hsettings hdrawable h
    exact Or.inr ⟨⟨t', rfl⟩, hexhausted⟩

/-- The default settings raise the first flower from a source that gives zeros only. -/
theorem raise_faultless_flower1 : ∃ p t', Preset.flower1.species.raise {} ⟨0, 0⟩ {}
    ⟨(⟨#[0], 0⟩ : Reel), #[]⟩ = .ok (.ok p) t' := by
  have hspecies : Preset.flower1.species.validate = .ok () := rfl
  have hsettings : ({} : Settings).validate = .ok () := rfl
  have hdrawable : ({} : Settings).Drawable :=
    ⟨fun _ => by decide, fun _ => by decide⟩
  have hbudget : budget Preset.flower1.species.rules.longest
      (Preset.flower1.species.generations {}).toNat < UInt32.size := by
    decide
  rcases raise_faultless hspecies hsettings hdrawable ⟨0, 0⟩ {} ⟨(⟨#[0], 0⟩ : Reel), #[]⟩ with
    hraised | ⟨-, hsize, -⟩
  · exact hraised
  · exact absurd hbudget (Nat.not_lt.mpr hsize)

/-- Settings with a least turn whose interval is wider than all numbers are. -/
def wideTurn : Settings := { minBranchJitter := 3e38 }

/-- The checks accept such a turn, and the first draw of it fails, long before any counter is
exhausted. -/
theorem raise_unbounded : twig.validate = .ok () ∧ wideTurn.validate = .ok () ∧
    budget twig.rules.longest (twig.generations wideTurn).toNat = 2 ∧
    ∃ t, twig.raise wideTurn ⟨0, 0⟩ {} ⟨(⟨#[0], 0⟩ : Reel), #[]⟩ = .error .unboundedRange t := by
  have haccepted : wideTurn.Accepted := by
    constructor
    case flowField =>
      intro flow hflow
      cases hflow
      rfl
    all_goals decide +kernel
  have herror : Outcome.isError (· = .unboundedRange)
      (twig.raise wideTurn ⟨0, 0⟩ {} ⟨(⟨#[0], 0⟩ : Reel), #[]⟩) = true := by
    decide +kernel
  obtain ⟨e, t, h, he⟩ := Outcome.exists_of_isError herror
  rw [of_decide_eq_true he] at h
  exact ⟨rfl, Settings.validate_eq_ok.mpr haccepted, by decide, t, h⟩

/-- Every preset is raised with any settings that leave it its generations. -/
theorem raise_preset (preset : Preset) (hsettings : settings.validate = .ok ())
    (hdrawable : settings.Drawable) (hiterations : settings.iterations = none) (origin : Vec)
    (v : Variation) (t : Surroundings σ) :
    ∃ p t', preset.species.raise settings origin v t = .ok (.ok p) t' := by
  have hs : preset.species.validate = .ok () := by cases preset <;> rfl
  have hbudget : budget preset.species.rules.longest preset.species.iterations.toNat <
      UInt32.size := by
    cases preset <;> decide
  cases h : preset.species.raise settings origin v t with
  | ok raised t' =>
    obtain ⟨p, rfl⟩ := exists_of_raise_eq_ok hs hsettings h
    exact ⟨p, t', rfl⟩
  | error e t' =>
    obtain ⟨-, hsize, -⟩ := exhausted_of_raise hs hsettings hdrawable h
    rw [generations, hiterations] at hsize
    exact absurd hbudget (Nat.not_lt.mpr hsize)

end Species

end PlantGrowth
