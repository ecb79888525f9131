import PlantGrowth.Settings.Basic
import PlantGrowth.Skeleton
import PlantGrowth.Params
import PlantGrowth.Journal
import PlantGrowth.Json.Record
import PlantGrowth.Json.Document

/-!
# Settings as JSON text

Every value that settings are made of has a written form: a record format to read it
and a document to write it. `Settings.ofText` reads and checks settings; fields that
the text leaves out keep their defaults.
-/

namespace PlantGrowth

open Json

/-- A field whose value replaces the one in the record. -/
def Json.Field.of {α ρ : Type} (name : String) (value : Reader α) (put : α → ρ → ρ) : Field ρ :=
  ⟨name, put <$> value, true⟩

/-- Like `Field.of`, for a field that an object may leave out. -/
def Json.Field.maybe {α ρ : Type} (name : String) (value : Reader α) (put : α → ρ → ρ) :
    Field ρ :=
  ⟨name, put <$> value, false⟩

namespace Vec

/-- Vector, written as an array of its coordinates. -/
def reader : Reader Vec := do
  let (x, y) ← Reader.pairOf "a sequence of 2 f32 values"
  return ⟨x, y⟩

def document (v : Vec) : Document := .ofPair (v.x, v.y)

end Vec

namespace Joint

def format : RecordFormat Joint where
  name := "Transform"
  fields := [
    .of "position" Vec.reader fun v j => { j with position := v },
    .of "direction" Vec.reader fun v j => { j with heading := v },
    .of "start_growth" .boolean fun b j => { j with ready := b },
    .of "growing_previous" .boolean fun b j => { j with extending := b }]
  blank := .waiting .zero .zero

def document (j : Joint) : Document :=
  .object [
    ("position", j.position.document),
    ("direction", j.heading.document),
    ("start_growth", .boolean j.ready),
    ("growing_previous", .boolean j.extending)]

end Joint

namespace FlowField

def format : RecordFormat FlowField where
  name := "FlowField"
  fields := [
    .of "change_step" .scalar fun x f => { f with changeStep := x },
    .of "min_change" .scalar fun x f => { f with minChange := x },
    .of "max_change" .scalar fun x f => { f with maxChange := x },
    .of "x_scale" .scalar fun x f => { f with xScale := x },
    .of "y_scale" .scalar fun x f => { f with yScale := x },
    .of "z_scale" .scalar fun x f => { f with zScale := x }]
  blank := {}

def document (f : FlowField) : Document :=
  .object [
    ("change_step", .scalar f.changeStep),
    ("min_change", .scalar f.minChange),
    ("max_change", .scalar f.maxChange),
    ("x_scale", .scalar f.xScale),
    ("y_scale", .scalar f.yScale),
    ("z_scale", .scalar f.zScale)]

end FlowField

namespace ColourShift

def format : RecordFormat ColourShift where
  name := "ColorShift"
  fields := [
    .of "hue" .scalar fun x s => { s with hue := x },
    .of "brightness" .scalar fun x s => { s with brightness := x },
    .of "saturation" .scalar fun x s => { s with saturation := x },
    .of "alpha" .scalar fun x s => { s with alpha := x }]
  blank := {}

def document (s : ColourShift) : Document :=
  .object [
    ("hue", .scalar s.hue),
    ("brightness", .scalar s.brightness),
    ("saturation", .scalar s.saturation),
    ("alpha", .scalar s.alpha)]

end ColourShift

namespace Palette

def format : RecordFormat Palette where
  name := "Palette"
  fields := [
    .of "leaf_hue" .pair fun r p => { p with leafHue := r },
    .of "leaf_saturation" .pair fun r p => { p with leafSaturation := r },
    .of "leaf_brightness" .pair fun r p => { p with leafBrightness := r },
    .of "leaf_alpha" .scalar fun x p => { p with leafAlpha := x },
    .of "shift" ColourShift.format.reader fun s p => { p with shift := s },
    .of "branch" .quadruple fun q p => { p with branch := q }]
  blank := {}

def document (p : Palette) : Document :=
  .object [
    ("leaf_hue", .ofPair p.leafHue),
    ("leaf_saturation", .ofPair p.leafSaturation),
    ("leaf_brightness", .ofPair p.leafBrightness),
    ("leaf_alpha", .scalar p.leafAlpha),
    ("shift", p.shift.document),
    ("branch", .ofQuadruple p.branch)]

end Palette

namespace GrowthParams

def format : RecordFormat GrowthParams where
  name := "GrowthParams"
  fields := [
    .of "angle" .scalar fun x p => { p with angle := x },
    .of "length" .scalar fun x p => { p with length := x },
    .of "leaf_size" .scalar fun x p => { p with leafSize := x },
    .of "growth_speed" .scalar fun x p => { p with growthSpeed := x },
    .of "growth_jitter" .pair fun r p => { p with growthJitter := r },
    .of "length_jitter" .pair fun r p => { p with lengthJitter := r },
    .of "branch_jitter" .scalar fun x p => { p with branchJitter := x },
    .of "min_branch_jitter" .scalar fun x p => { p with minBranchJitter := x },
    .of "branch_width" .scalar fun x p => { p with branchWidth := x },
    .of "palette" Palette.format.reader fun q p => { p with palette := q },
    .maybe "flow_field" (.optional FlowField.format.reader) fun f p => { p with flowField := f }]
  blank := {}

def document (p : GrowthParams) : Document :=
  .object [
    ("angle", .scalar p.angle),
    ("length", .scalar p.length),
    ("leaf_size", .scalar p.leafSize),
    ("growth_speed", .scalar p.growthSpeed),
    ("growth_jitter", .ofPair p.growthJitter),
    ("length_jitter", .ofPair p.lengthJitter),
    ("branch_jitter", .scalar p.branchJitter),
    ("min_branch_jitter", .scalar p.minBranchJitter),
    ("branch_width", .scalar p.branchWidth),
    ("palette", p.palette.document),
    ("flow_field", .ofOption FlowField.document p.flowField)]

end GrowthParams

namespace Settings

def format : RecordFormat Settings where
  name := "Settings"
  fields := [
    .maybe "seed" .word64 fun n s => { s with seed := n },
    .maybe "growth_speed" .scalar fun x s => { s with growthSpeed := x },
    .maybe "growth_jitter" .pair fun r s => { s with growthJitter := r },
    .maybe "length_jitter" .pair fun r s => { s with lengthJitter := r },
    .maybe "branch_jitter" .scalar fun x s => { s with branchJitter := x },
    .maybe "min_branch_jitter" .scalar fun x s => { s with minBranchJitter := x },
    .maybe "branch_width" .scalar fun x s => { s with branchWidth := x },
    .maybe "flow_field" (.optional FlowField.format.reader) fun f s => { s with flowField := f },
    .maybe "iterations" (.optional .word32) fun n s => { s with iterations := n },
    .maybe "frames" .word32 fun n s => { s with frames := n },
    .maybe "frame_time" .scalar fun x s => { s with frameTime := x }]
  blank := {}
  openEnded := true

def document (s : Settings) : Document :=
  .object [
    ("seed", .natural s.seed.toNat),
    ("growth_speed", .scalar s.growthSpeed),
    ("growth_jitter", .ofPair s.growthJitter),
    ("length_jitter", .ofPair s.lengthJitter),
    ("branch_jitter", .scalar s.branchJitter),
    ("min_branch_jitter", .scalar s.minBranchJitter),
    ("branch_width", .scalar s.branchWidth),
    ("flow_field", .ofOption FlowField.document s.flowField),
    ("iterations", .ofOption (fun n : UInt32 => .natural n.toNat) s.iterations),
    ("frames", .natural s.frames.toNat),
    ("frame_time", .scalar s.frameTime)]

/-- Settings of a text, checked. -/
def ofText (text : String) : Except ConfigError Settings := do
  let s ← (Json.read format.reader text).mapError .json
  s.validate
  return s

/-- The settings as text over several lines. -/
def toText (s : Settings) : String := s.document.pretty

/-- Journal entry for settings that were read. -/
def loaded (s : Settings) : Event := .settingsLoaded s.seed

end Settings

end PlantGrowth
