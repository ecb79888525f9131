import PlantGrowth.Proofs.Reachable
import PlantGrowth.Species.Basic

/-!
# Raised plants

A species and settings that pass their checks (`Species.Accepted`, `Settings.Accepted`) raise a
plant: it is sprouted and then goes through its generations. `Species.raise_induction` is the run
lemma for what raised plants have in common.
-/

set_option autoImplicit false

namespace PlantGrowth

/-! ## Checks -/

/-- A check that refuses what has a property. -/
theorem Outcome.refuse_eq_ok {ε α β : Type} {c : Prop} [Decidable c] {e : ε}
    {f : α → Except ε β} {y : Except ε β} {b : β} :
    (if c then throw e >>= f else y) = .ok b ↔ ¬ c ∧ y = .ok b := by
  split
  · rename_i hc
    exact iff_of_false (fun h => by cases h) (fun h => h.1 hc)
  · rename_i hc
    exact (and_iff_right hc).symm

namespace Settings

/-- What the checks of the settings demand. -/
structure Accepted (s : Settings) : Prop where
  growthSpeed : 0 < s.growthSpeed
  growthJitter : 0 < s.growthJitter.1 ∧ s.growthJitter.1 ≤ s.growthJitter.2
  lengthJitter : 0 < s.lengthJitter.1 ∧ s.lengthJitter.1 ≤ s.lengthJitter.2
  branchJitter : ¬ s.branchJitter < 0 ∧ ¬ s.minBranchJitter < 0
  branchWidth : 0 < s.branchWidth
  flowField : ∀ flow, s.flowField = some flow → flow.isValid = true
  iterations : s.iterations ≠ some 0
  frameTime : 0 < s.frameTime

/-- What the check of a single value accepts. -/
theorem checkPositive_eq_ok {field : String} {value : Scalar} {u : Unit} :
    checkPositive field value = .ok u ↔ 0 < value := by
  unfold checkPositive
  split <;> simp [*]

/-- What the check of a range accepts. -/
theorem checkRange_eq_ok {field : String} {range : Scalar × Scalar} {u : Unit} :
    checkRange field range = .ok u ↔ 0 < range.1 ∧ range.1 ≤ range.2 := by
  unfold checkRange
  split <;> simp [*]

/-- The check of settings accepts exactly the settings that are described as accepted. -/
theorem validate_eq_ok {s : Settings} : s.validate = .ok () ↔ s.Accepted := by
  constructor
  · intro h
    simp only [validate, Outcome.except_bind_eq_ok, Outcome.refuse_eq_ok, checkPositive_eq_ok,
      checkRange_eq_ok, not_or, exists_const] at h
    obtain ⟨hspeed, hgrowth, hlength, hjitter, hwidth, h⟩ := h
    cases hflow : s.flowField with
    | none =>
      simp only [hflow, Outcome.refuse_eq_ok, checkPositive_eq_ok] at h
      exact ⟨hspeed, hgrowth, hlength, hjitter, hwidth, by simp [hflow], h.1, h.2⟩
    | some flow =>
      simp only [hflow, Outcome.refuse_eq_ok, checkPositive_eq_ok, Bool.not_eq_true',
        Bool.not_eq_false] at h
      obtain ⟨hvalid, hiterations, htime⟩ := h
      exact ⟨hspeed, hgrowth, hlength, hjitter, hwidth, by simpa [hflow] using hvalid, hiterations,
        htime⟩
  · intro h
    simp only [validate, Outcome.except_bind_eq_ok, Outcome.refuse_eq_ok, checkPositive_eq_ok,
      checkRange_eq_ok, not_or, exists_const]
    refine ⟨h.growthSpeed, h.growthJitter, h.lengthJitter, h.branchJitter, h.branchWidth, ?_⟩
    cases hflow : s.flowField with
    | none =>
      simp only [Outcome.refuse_eq_ok, checkPositive_eq_ok]
      exact ⟨h.iterations, h.frameTime⟩
    | some flow =>
      simp only [Outcome.refuse_eq_ok, checkPositive_eq_ok, Bool.not_eq_true', Bool.not_eq_false]
      exact ⟨h.flowField flow hflow, h.iterations, h.frameTime⟩

end Settings

namespace Species

/-- What the checks of a species demand. -/
structure Accepted (s : Species) : Prop where
  seed : Text.isBlank s.seed = false
  positives : ∀ p ∈ s.positives, 0 < p.2
  iterations : s.iterations ≠ 0
  rules : ∀ r ∈ s.rules.entries, r.2.texts ≠ []

theorem accepted_of_validate {s : Species} (h : s.validate = .ok ()) : s.Accepted := by
  simp only [validate, Outcome.refuse_eq_ok] at h
  obtain ⟨hseed, h⟩ := h
  cases hfind : s.positives.find? fun p => !(0 < p.2) with
  | some p =>
    rw [hfind] at h
    cases h
  | none =>
    rw [hfind] at h
    simp only [Outcome.refuse_eq_ok] at h
    obtain ⟨hiterations, h⟩ := h
    cases hempty : s.emptyRule? with
    | some letter =>
      rw [hempty] at h
      cases h
    | none =>
      refine ⟨by simpa using hseed, by simpa using hfind, hiterations, ?_⟩
      simpa [emptyRule?] using hempty

/-! ## Generations -/

variable {σ : Type} [RandomSource σ] {s : Species} {settings : Settings} {origin : Vec}
  {v : Variation} {p q : Plant} {t t' : Surroundings σ}

/-- The journal entry for a generation with unmatched brackets. -/
def noteUnbalanced (s : Species) (p : Plant) (tally : Tally) : Garden σ Unit :=
  if !tally.balanced then
    Garden.note (.unbalanced s.name p.generation tally.strays tally.unclosed)
  else pure ()

/-- One generation more comes before the others, with its note about brackets. -/
theorem generateTimes_succ (s : Species) (count : Nat) (p : Plant) :
    (s.generateTimes (count + 1) p : Garden σ Plant) = (do
      let (p', tally) ← p.generate
      s.noteUnbalanced p' tally
      s.generateTimes count p') := by
  unfold noteUnbalanced
  rw [generateTimes]
  refine bind_congr fun r => ?_
  obtain ⟨p', tally⟩ := r
  dsimp only
  by_cases hbalanced : tally.balanced = true <;> simp [hbalanced]

/-- A plant is raised by sowing a seed and going through the generations, after both checks. -/
theorem raise_eq_ok (h : s.raise settings origin v t = .ok (.ok p) t') :
    s.Accepted ∧ settings.Accepted ∧ ∃ seedling r r',
      Plant.sprout s.seed s.rules (s.params settings v) origin t = .ok seedling r ∧
      s.generateTimes (s.generations settings).toNat seedling r = .ok p r' := by
  unfold raise at h
  generalize hchecks : (s.validate >>= fun _ => settings.validate) = checks at h
  cases checks with
  | error e =>
    obtain ⟨heq, -⟩ := Outcome.pure_eq_ok.mp h
    cases heq
  | ok u =>
    obtain ⟨u', hspecies, hsettings⟩ := Outcome.except_bind_eq_ok.mp hchecks
    simp only [Outcome.bind_eq_ok, Outcome.pure_eq_ok, Except.ok.injEq] at h
    obtain ⟨seedling, r, hsprout, plant, r', hgenerate, -, -, -, rfl, -⟩ := h
    exact ⟨accepted_of_validate hspecies, Settings.validate_eq_ok.mp hsettings, seedling, r, r',
      hsprout, hgenerate⟩

theorem generateTimes_induction {P : Plant → Prop}
    (generate : ∀ {p p' : Plant} {tally : Tally} {r r' : Surroundings σ},
      Plant.Reachable origin p → P p → p.generate r = .ok (p', tally) r' → P p')
    {count : Nat} (h : s.generateTimes count p t = .ok q t') (hreach : Plant.Reachable origin p)
    (hp : P p) : Plant.Reachable origin q ∧ P q := by
  induction count generalizing p t with
  | zero =>
    obtain ⟨rfl, -⟩ := Outcome.pure_eq_ok.mp h
    exact ⟨hreach, hp⟩
  | succ count ih =>
    rw [generateTimes_succ] at h
    simp only [Outcome.bind_eq_ok] at h
    obtain ⟨⟨p', tally⟩, r, hgenerate, -, r', -, hrest⟩ := h
    exact ih hrest (.generate hreach hgenerate) (generate hreach hp hgenerate)

/-- What holds of every seedling and is kept by generations holds of raised plants. -/
theorem raise_induction {P : Plant → Prop} (h : s.raise settings origin v t = .ok (.ok p) t')
    (sprout : ∀ {p : Plant} {r r' : Surroundings σ},
      Plant.sprout s.seed s.rules (s.params settings v) origin r = .ok p r' → P p)
    (generate : ∀ {p p' : Plant} {tally : Tally} {r r' : Surroundings σ},
      Plant.Reachable origin p → P p → p.generate r = .ok (p', tally) r' → P p') :
    Plant.Reachable origin p ∧ P p := by
  obtain ⟨-, -, seedling, r, r', hsprout, htimes⟩ := raise_eq_ok h
  exact generateTimes_induction generate htimes (.sprout hsprout) (sprout hsprout)

end Species

end PlantGrowth
