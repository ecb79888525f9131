import PlantGrowth.Proofs.Likeness
import PlantGrowth.Chance.Stream

/-!
# Parameters that change only looks

Most of what the random source decides is decided while a plant is built: which text replaces a
letter, how long and how askew a branch is, and what colour its leaf has. All of it comes from one
source, so a draw more or less would shift every decision behind it. Some parameters cannot do that:
they enter no interval that is drawn from, only what is made of the draws. Two plants whose
parameters are the same but for these (`GrowthParams.SameForm`) take the same draws
(`Turtle.shape_sameForm`), and are the same but for the colours of their nodes, generation by
generation (`Plant.lineage_sameForm`).
-/

set_option autoImplicit false

namespace PlantGrowth

open Outcome

/-! ## Parameters of the same form -/

/-- The parameters agree in all that enters the structure of a plant. They may differ in the size of
leaves, the width of branches, the speed and jitter of their growth, the flow field, and of the
palette in the shift of the hue, the opacity of leaves with its shift, and the branch colour. -/
structure GrowthParams.SameForm (params params' : GrowthParams) : Prop where
  angle : params'.angle = params.angle
  length : params'.length = params.length
  lengthJitter : params'.lengthJitter = params.lengthJitter
  branchJitter : params'.branchJitter = params.branchJitter
  minBranchJitter : params'.minBranchJitter = params.minBranchJitter
  leafHue : params'.palette.leafHue = params.palette.leafHue
  leafSaturation : params'.palette.leafSaturation = params.palette.leafSaturation
  leafBrightness : params'.palette.leafBrightness = params.palette.leafBrightness
  brightnessShift : params'.palette.shift.brightness = params.palette.shift.brightness
  saturationShift : params'.palette.shift.saturation = params.palette.shift.saturation

/-- The kind with all colours blanked. -/
def Kind.uncoloured : Kind → Kind
  | .placeholder => .placeholder
  | .bud _ => .bud ⟨0, 0, 0, 0⟩
  | .branch b => .branch { b with colour := ⟨0, 0, 0, 0⟩, leafColour := ⟨0, 0, 0, 0⟩ }

@[simp] theorem Kind.uncoloured_sprout (length : Scalar) (colour leafColour : Rgba) :
    uncoloured (.branch (.sprout length colour leafColour)) =
      .branch (.sprout length ⟨0, 0, 0, 0⟩ ⟨0, 0, 0, 0⟩) := rfl

section SameForm

variable {params params' : GrowthParams} {σ : Type} [RandomSource σ]

/-- A leaf takes the same draws, whatever colour comes of them. -/
theorem Palette.leafColour_sameForm (h : params.SameForm params') (source : σ) :
    Matched (fun a b => b.2 = a.2) (params.palette.leafColour source)
      (params'.palette.leafColour source) := by
  unfold leafColour
  rw [h.leafHue, h.leafSaturation, h.leafBrightness, h.brightnessShift, h.saturationShift]
  refine (Matched.same _).bind ?_
  rintro _ ⟨turn, afterHue⟩ rfl
  refine (Matched.same _).bind ?_
  rintro _ ⟨saturation, afterSaturation⟩ rfl
  refine (Matched.same _).bind ?_
  rintro _ ⟨brightness, afterBrightness⟩ rfl
  exact .ok rfl

namespace Turtle

theorem wander_sameForm (h : params.SameForm params') (age depth : UInt32) :
    wander params' age depth = wander params age depth := by
  rw [wander, wander, h.branchJitter, h.minBranchJitter]

/-- A branch takes the same draws, and is the same but for its colours. -/
theorem sproutBranch_sameForm (h : params.SameForm params') (age : UInt32) (frame : Frame)
    (source : σ) :
    Matched (fun a b => (b.1.1 = a.1.1 ∧ Kind.uncoloured (.branch b.1.2) =
        Kind.uncoloured (.branch a.1.2)) ∧ b.2 = a.2)
      (sproutBranch params age frame source) (sproutBranch params' age frame source) := by
  unfold sproutBranch
  rw [wander_sameForm h, h.lengthJitter, h.length]
  refine (Matched.same _).bind ?_
  rintro _ ⟨turn, afterTurn⟩ rfl
  refine (Matched.same _).bind ?_
  rintro _ ⟨factor, afterLength⟩ rfl
  refine (Palette.leafColour_sameForm h afterLength).bind ?_
  rintro ⟨leaf, _⟩ ⟨leaf', afterLeaf⟩ rfl
  refine .ok ⟨⟨rfl, ?_⟩, rfl⟩
  rw [Kind.uncoloured_sprout, Kind.uncoloured_sprout]

/-- Every node takes the same draws, and is the same but for its colours. -/
theorem shape_sameForm (h : params.SameForm params') (age : UInt32) (frame : Frame)
    (action : Action) (source : σ) :
    Matched (fun a b => (b.1.1 = a.1.1 ∧ Kind.uncoloured b.1.2 = Kind.uncoloured a.1.2) ∧
        b.2 = a.2)
      (shape params age frame action source) (shape params' age frame action source) := by
  unfold shape
  cases action with
  | bud =>
    refine (Palette.leafColour_sameForm h source).bind ?_
    rintro ⟨colour, _⟩ ⟨colour', afterBud⟩ rfl
    exact .ok ⟨⟨rfl, rfl⟩, rfl⟩
  | branch =>
    refine (sproutBranch_sameForm h age frame source).bind ?_
    rintro ⟨⟨_, b⟩, _⟩ ⟨⟨rotation, b'⟩, afterBranch⟩ ⟨⟨rfl, hb⟩, rfl⟩
    exact .ok ⟨⟨rfl, hb⟩, rfl⟩
  | turnLeft => exact .ok ⟨⟨rfl, rfl⟩, rfl⟩
  | turnRight => exact .ok ⟨⟨rfl, rfl⟩, rfl⟩
  | save => exact .ok ⟨⟨rfl, rfl⟩, rfl⟩
  | restore => exact .ok ⟨⟨rfl, rfl⟩, rfl⟩
  | placeholder => exact .ok ⟨⟨rfl, rfl⟩, rfl⟩

end Turtle

theorem GrowthParams.SameForm.sameThrough (h : params.SameForm params') :
    params.SameThrough Kind.uncoloured params' where
  angle_eq := h.angle
  shape _ _ := Turtle.shape_sameForm h

end SameForm

/-! ## Plants of the same form -/

namespace Plant

/-- A plant from its letter through some generations, and their tallies. -/
def lineage {σ : Type} [RandomSource σ] (letter : Char) (rules : Rules String)
    (params : GrowthParams) (origin : Vec) (count : Nat) : Garden σ (Plant × List Tally) := do
  (← sprout letter rules params origin).generations count

/-- Plants whose parameters are of the same form have lineages of the same form, wherever they are
sown: both stop with the same fault, or the plants are the same but for the colours of their nodes
and what their joints hold, with the same tallies in all generations and the same draws. -/
theorem lineage_sameForm {params params' : GrowthParams} (h : params.SameForm params') (σ : Type)
    [WordSource σ] (letter : Char) (rules : Rules String) (origin origin' : Vec) (count : Nat)
    (source : Counted σ) (journal journal' : Journal) :
    Alike (fun _ _ => True)
      (fun a s b t => a.1.SameThrough Kind.uncoloured b.1 ∧ b.2 = a.2 ∧ t.source = s.source ∧
        t.source.draws = s.source.draws)
      (lineage letter rules params origin count ⟨source, journal⟩)
      (lineage letter rules params' origin' count ⟨source, journal'⟩) := by
  have hrun : InStep (Surroundings.SameSource (σ := Counted σ))
      (fun a b => Twins Kind.uncoloured a.1 b.1 ∧ b.2 = a.2)
      (lineage letter rules params origin count) (lineage letter rules params' origin' count) :=
    (sprout_inStep h.sameThrough letter rules origin origin').bind
      fun _ _ hpq => generations_inStep count hpq
  refine (hrun ⟨source, journal⟩ ⟨source, journal'⟩ rfl).mono (fun _ _ h => h) ?_
  rintro a s b t ⟨⟨htwins, htallies⟩, hsource⟩
  exact ⟨htwins.same, htallies, hsource, congrArg Counted.draws hsource⟩

/-- Parameters that change everything about the looks of the default ones. -/
def gaudy : GrowthParams where
  leafSize := 9
  growthSpeed := 3
  growthJitter := (0.5, 0.5)
  branchWidth := 4
  palette := { leafAlpha := 90, shift := { hue := 120, alpha := 5 }, branch := (90, 10, 80, 50) }
  flowField := some {}

/-- Rules with a choice of texts, one of them with a stray bracket. -/
def thicket : Rules String := .ofList [('F', .choice ["F[+X]F", "FX"]), ('X', .fixed "F]-X")]

/-- Two generations of a thicket and of its gaudy twin, each branch and leaf of which is drawn. -/
theorem lineage_sameForm_gaudy : ∃ (a b : Plant × List Tally)
    (s t : Surroundings (Counted Reel)),
    lineage 'F' thicket {} ⟨0, 0⟩ 2 ⟨⟨⟨#[0, 0xffffffff], 0⟩, 0⟩, #[]⟩ = .ok a s ∧
    lineage 'F' thicket gaudy ⟨7, 1⟩ 2 ⟨⟨⟨#[0, 0xffffffff], 0⟩, 0⟩, #[]⟩ = .ok b t ∧
    s.source.draws ≠ 0 ∧ a.1.SameThrough Kind.uncoloured b.1 ∧ b.2 = a.2 ∧
    t.source = s.source ∧ t.source.draws = s.source.draws := by
  have hok : Outcome.isOk (fun draws => draws != 0)
      ((do
        let _ ← lineage 'F' thicket {} ⟨0, 0⟩ 2
        return (← get).source.draws : Garden (Counted Reel) Nat)
        ⟨⟨⟨#[0, 0xffffffff], 0⟩, 0⟩, #[]⟩) = true := by decide +kernel
  obtain ⟨draws, s, h, hdraws⟩ := Outcome.exists_of_isOk hok
  simp only [Outcome.bind_eq_ok, Outcome.get_eq_ok, Outcome.pure_eq_ok] at h
  obtain ⟨a, _, ha, _, _, ⟨rfl, rfl⟩, rfl, rfl⟩ := h
  have hform : ({} : GrowthParams).SameForm gaudy :=
    ⟨rfl, rfl, rfl, rfl, rfl, rfl, rfl, rfl, rfl, rfl⟩
  obtain ⟨b, t, hb, hsame⟩ := (lineage_sameForm hform Reel 'F' thicket ⟨0, 0⟩ ⟨7, 1⟩ 2
    ⟨⟨#[0, 0xffffffff], 0⟩, 0⟩ #[] #[]).exists_of_ok ha
  exact ⟨a, b, _, t, ha, hb, bne_iff_ne.mp hdraws, hsame⟩

end Plant

end PlantGrowth
