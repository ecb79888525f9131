import PlantGrowth.Proofs.JsonRecords
import PlantGrowth.Proofs.Outcome
import PlantGrowth.Settings.Text

/-!
# Settings are read back from the text they are written to

The text of settings holds all their fields, and reading it puts all of them into the defaults. A
scalar that is not finite is written as `null`, which no reader of scalars takes. `validate` bounds
scalars from below only, so a literal beyond the largest scalar passes it as an infinity: such
settings are accepted and written, but their text is refused (`ofText_toText`).
-/

set_option autoImplicit false

namespace PlantGrowth

open Json Json.RecordFormat

namespace FlowField

/-- No parameter is infinite or undefined. -/
def isFinite (f : FlowField) : Bool :=
  f.changeStep.isFinite && f.minChange.isFinite && f.maxChange.isFinite && f.xScale.isFinite &&
    f.yScale.isFinite && f.zScale.isFinite

/-- Members of the written flow field. -/
def entries (f : FlowField) : List (Entry FlowField) := [
  .scalar "change_step" f.changeStep fun x g => { g with changeStep := x },
  .scalar "min_change" f.minChange fun x g => { g with minChange := x },
  .scalar "max_change" f.maxChange fun x g => { g with maxChange := x },
  .scalar "x_scale" f.xScale fun x g => { g with xScale := x },
  .scalar "y_scale" f.yScale fun x g => { g with yScale := x },
  .scalar "z_scale" f.zScale fun x g => { g with zScale := x }]

theorem regular_format : format.Regular where
  nonempty := List.cons_ne_nil _ _
  distinct := by decide
  plain := by simp [Plain, format, Field.of]

theorem filled_entries (f : FlowField) : Filled format f.entries where
  names := rfl
  fits := by
    simp only [entries, List.forall_mem_cons]
    refine ⟨?_, ?_, ?_, ?_, ?_, ?_, by simp⟩
    all_goals exact Entry.fits_scalar rfl

theorem document_eq (f : FlowField) : f.document = .object (f.entries.map Entry.member) := rfl

theorem putAll_entries (f g : FlowField) : putAll f.entries g = f := by
  simp [putAll, entries, Entry.scalar, Entry.of]

theorem all_finite (f : FlowField) : f.entries.all Entry.finite = f.isFinite := by
  simp [entries, isFinite, Entry.scalar, Entry.of, Bool.and_assoc]

/-- A flow field is read as it is written, if all its parameters are finite. -/
theorem reads_document (f : FlowField) (level : ℕ) :
    Reads format.reader (f.document.prettyChars level) f.isFinite f := by
  have hread := reads_record regular_format f.filled_entries level
  rwa [all_finite, putAll_entries, ← document_eq] at hread

end FlowField

namespace Settings

/-- No scalar of the settings is infinite or undefined. -/
def isFinite (s : Settings) : Bool :=
  s.growthSpeed.isFinite && (s.growthJitter.1.isFinite && s.growthJitter.2.isFinite) &&
    (s.lengthJitter.1.isFinite && s.lengthJitter.2.isFinite) && s.branchJitter.isFinite &&
    s.minBranchJitter.isFinite && s.branchWidth.isFinite && s.flowField.all FlowField.isFinite &&
    s.frameTime.isFinite

/-- Members of the written settings. -/
def entries (s : Settings) : List (Entry Settings) := [
  .of "seed" (.natural s.seed.toNat) true (fun n r => { r with seed := n }) s.seed,
  .scalar "growth_speed" s.growthSpeed fun x r => { r with growthSpeed := x },
  .pair "growth_jitter" s.growthJitter fun p r => { r with growthJitter := p },
  .pair "length_jitter" s.lengthJitter fun p r => { r with lengthJitter := p },
  .scalar "branch_jitter" s.branchJitter fun x r => { r with branchJitter := x },
  .scalar "min_branch_jitter" s.minBranchJitter fun x r => { r with minBranchJitter := x },
  .scalar "branch_width" s.branchWidth fun x r => { r with branchWidth := x },
  .of "flow_field" (.ofOption FlowField.document s.flowField) (s.flowField.all FlowField.isFinite)
    (fun f r => { r with flowField := f }) s.flowField,
  .of "iterations" (.ofOption (fun n : UInt32 => .natural n.toNat) s.iterations) true
    (fun n r => { r with iterations := n }) s.iterations,
  .of "frames" (.natural s.frames.toNat) true (fun n r => { r with frames := n }) s.frames,
  .scalar "frame_time" s.frameTime fun x r => { r with frameTime := x }]

theorem regular_format : format.Regular where
  nonempty := List.cons_ne_nil _ _
  distinct := by decide
  plain := by simp [Plain, format, Field.maybe]

theorem reads_flow (o : Option FlowField) (level : ℕ) :
    Reads (Reader.optional FlowField.format.reader)
      ((Document.ofOption FlowField.document o).prettyChars level) (o.all FlowField.isFinite)
      o := by
  cases o with
  | none => exact reads_none
  | some f => exact reads_some (c := '\x7b') (f.reads_document level) rfl (by decide)

theorem reads_iterations (o : Option UInt32) (level : ℕ) :
    Reads (Reader.optional Reader.word32)
      ((Document.ofOption (fun n : UInt32 => .natural n.toNat) o).prettyChars level) true o := by
  cases o with
  | none => exact reads_none
  | some n =>
    obtain ⟨c, cs, hdigits, hc⟩ := exists_digit_digits n.toNat
    have hnull : c ≠ 'n' := ne_of_isDigit hc rfl
    have hread := reads_word32 n
    rw [hdigits] at hread
    have hsome := reads_some hread (isBlank_of_isDigit hc) hnull
    rwa [← hdigits] at hsome

theorem filled_entries (s : Settings) : Filled format s.entries where
  names := rfl
  fits := by
    simp only [entries, List.forall_mem_cons]
    refine ⟨?seed, ?_, ?_, ?_, ?_, ?_, ?_, ?flow, ?iterations, ?frames, ?_, by simp⟩
    case seed => exact Entry.fits_of rfl fun _ => reads_word64 s.seed
    case flow => exact Entry.fits_of rfl fun level => reads_flow s.flowField level
    case iterations => exact Entry.fits_of rfl fun level => reads_iterations s.iterations level
    case frames => exact Entry.fits_of rfl fun _ => reads_word32 s.frames
    all_goals first
      | exact Entry.fits_scalar rfl
      | exact Entry.fits_pair rfl

theorem document_eq (s : Settings) : s.document = .object (s.entries.map Entry.member) := rfl

theorem putAll_entries (s r : Settings) : putAll s.entries r = s := by
  simp [putAll, entries, Entry.scalar, Entry.pair, Entry.of]

theorem all_finite (s : Settings) : s.entries.all Entry.finite = s.isFinite := by
  simp [entries, isFinite, Entry.scalar, Entry.pair, Entry.of, Bool.and_assoc]

/-- Settings are read as they are written, if all their scalars are finite. -/
theorem read_toText (s : Settings) :
    Json.read format.reader s.toText = if s.isFinite then .ok s else .error nullScalar := by
  have hread := reads_record regular_format s.filled_entries 0
  rw [all_finite, putAll_entries, ← document_eq] at hread
  exact read_pretty hread

/-- Settings that a text gives are in order. -/
theorem validate_of_ofText {t : String} {s : Settings} (h : ofText t = .ok s) :
    s.validate = .ok () := by
  simp only [ofText, Outcome.except_bind_eq_ok, Outcome.except_pure_eq_ok] at h
  obtain ⟨s', -, ⟨⟩, hvalid, rfl⟩ := h
  exact hvalid

/-- Settings in order are read back from their text, unless one of their scalars is not finite: it
is written as `null`, and their text is refused. -/
theorem ofText_toText_of_validate {s : Settings} (h : s.validate = .ok ()) :
    ofText s.toText =
      if s.isFinite then .ok s else .error (.json (.wrongType .null "f32")) := by
  unfold ofText
  rw [read_toText]
  cases s.isFinite with
  | false => rfl
  | true =>
    change (do s.validate; return s : Except ConfigError Settings) = .ok s
    rw [h]
    rfl

/-- What a text gives is read back from the text it is written to, if all scalars are finite;
otherwise that text is refused. -/
theorem ofText_toText {t : String} {s : Settings} (h : ofText t = .ok s) :
    ofText s.toText =
      if s.isFinite then .ok s else .error (.json (.wrongType .null "f32")) :=
  ofText_toText_of_validate (validate_of_ofText h)

/-- Settings without a flow field, from a text that leaves fields out and holds a rounded number. -/
theorem ofText_toText_still :
    let s : Settings := { growthJitter := (1e-3, 0.5), flowField := none }
    ofText "\x7b\"growth_jitter\": [1e-3, 0.5], \"flow_field\": null\x7d" = .ok s ∧
      ofText s.toText = .ok s := by
  intro s
  have hread : ofText "\x7b\"growth_jitter\": [1e-3, 0.5], \"flow_field\": null\x7d" = .ok s := rfl
  have hfinite : s.isFinite = true := by decide
  have hback := ofText_toText hread
  rw [if_pos hfinite] at hback
  exact ⟨hread, hback⟩

set_option maxRecDepth 1000 in
/-- A literal beyond the largest scalar is accepted as an infinity, and the text of these settings
is refused. -/
theorem ofText_toText_overflow :
    let s : Settings := { growthSpeed := 1 / 0 }
    ofText "\x7b\"growth_speed\": 1e39\x7d" = .ok s ∧
      ofText s.toText = .error (.json (.wrongType .null "f32")) := by
  intro s
  have hread : ofText "\x7b\"growth_speed\": 1e39\x7d" = .ok s := rfl
  have hfinite : s.isFinite = false := by decide
  have hback := ofText_toText_of_validate (validate_of_ofText hread)
  rw [hfinite] at hback
  exact ⟨hread, hback⟩

end Settings

end PlantGrowth
