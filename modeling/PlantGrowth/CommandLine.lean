import PlantGrowth.Chance.Stream
import PlantGrowth.Journal
import PlantGrowth.Wind.Noise
import PlantGrowth.Settings.Text
import PlantGrowth.Species.Preset
import PlantGrowth.Mesh

/-!
# Demonstration

The command line `[preset] [seed] [settings file]` raises one preset plant, animates it
frame by frame without drawing, and reports how far it grew. `Demonstration.run` is
the whole program as a function of its arguments and of the files they name.
-/

namespace PlantGrowth.Demonstration

/-- Reason why the demonstration ends before its last line. -/
inductive Stop where
  | refused (e : ConfigError)
  | fault (f : Fault)

/-- What the demonstration has at hand: the random source, the journal, and the lines
printed so far. -/
structure Console where
  surroundings : Surroundings Pcg
  output : Array String := #[]

/-- A step of the demonstration. -/
abbrev Session := EStateM Stop Console

namespace Session

/-- A step that may be refused. -/
def accept {α : Type} (x : Except ConfigError α) : Session α := fun c =>
  match x with
  | .ok a => .ok a c
  | .error e => .error (.refused e) c

/-- A step in the surroundings of a plant. -/
def inGarden {α : Type} (x : Garden Pcg α) : Session α := fun c =>
  match x c.surroundings with
  | .ok a s => .ok a { c with surroundings := s }
  | .error f s => .error (.fault f) { c with surroundings := s }

/-- An event for the journal. -/
def note (e : Event) : Session Unit := inGarden (Garden.note e)

/-- A line of output. -/
def print (line : String) : Session Unit := fun c =>
  .ok () { c with output := c.output.push line }

end Session

open Session

/-- Value of an unsigned number of 64 bits, which may have a plus sign. -/
def unsigned? (text : String) : Option UInt64 :=
  let digits := match text.toList with
    | '+' :: ds => ds
    | ds => ds
  if digits.isEmpty || !digits.all Char.isDigit then none
  else
    let n := digits.foldl (fun n c => 10 * n + (c.toNat - 48)) 0
    if n < UInt64.size then some (.ofNat n) else none

/-- Settings of a file, or the default ones. -/
def settingsOf (file? : Option String) (textOf : String → Except FileFault String) :
    Session Settings := do
  match file? with
  | none => return {}
  | some path =>
    let text ← accept ((textOf path).mapError .file)
    let settings ← accept (Settings.ofText text)
    note settings.loaded
    return settings

/-- Preset and settings of the arguments. A seed among them replaces the one of the
settings. -/
def configure (args : List String) (textOf : String → Except FileFault String) :
    Session (Preset × Settings) := do
  let preset ← match args[0]? with
    | some name => accept (Preset.ofName name)
    | none => pure .flower1
  let settings ← settingsOf args[2]? textOf
  -- the seed comes last: a fault in the settings is reported before one in it
  match args[1]? with
  | none => return (preset, settings)
  | some text =>
    match unsigned? text with
    | some seed => return (preset, { settings with seed })
    | none => accept (.error (.invalidSetting "seed" (.notUnsigned text)))

/-- State of the animation. -/
structure Film where
  plant : Plant
  /-- Marks of the last frame. -/
  marks : List Mark := []
  /-- The first frame after which the plant was fully grown. -/
  grownAt : Option Nat := none

/-- Event of a frame's marks. -/
def frameEvent (frame : Nat) (marks : List Mark) : Event :=
  let segments := marks.countP fun m => match m with
    | .segment .. => true
    | .dot _ => false
  .frame frame segments (marks.length - segments) (Mesh.ofMarks marks).length

/-- The animation through `left` further frames, the next one of which has the number
`frame`. Every sixtieth frame is noted in the journal. -/
def animate (settings : Settings) (noise : Noise) : Nat → Nat → Film → Session Film
  | 0, _, film => return film
  | left + 1, frame, film => do
    let time := (UInt32.ofNat frame).toFloat32 * settings.frameTime
    let ⟨plant, _, grownAt⟩ := film
    let (plant, marks) ← inGarden (plant.tick time noise)
    if frame % 60 = 0 then note (frameEvent frame marks)
    let grownAt := match grownAt with
      | some n => some n
      | none => if plant.isFullyGrown then some frame else none
    animate settings noise left (frame + 1) { plant, marks, grownAt }

/-- The demonstration of a preset. -/
def exhibit (preset : Preset) (settings : Settings) : Session Unit := do
  note (.started preset.name settings.seed)
  modify fun c =>
    { c with surroundings := { c.surroundings with source := .ofSeed settings.seed } }
  let species := preset.species
  let plant ← accept (← inGarden (species.raise settings .zero {}))
  print s!"{species.name}: {plant.generation} generations, {plant.nodes.length} symbols, age {plant.age}, {plant.skeleton.size} transforms"
  let noise := (Lattice.ofSeed settings.seed).sample
  let film ← animate settings noise settings.frames.toNat 0 { plant }
  match film.grownAt with
  | some frame => print s!"fully grown after {frame + 1} frames"
  | none => print s!"still growing after {settings.frames} frames"
  let vertices := (Mesh.ofMarks film.marks).length
  print s!"last frame: {film.marks.length} marks, {vertices} vertices"

/-- What a run leaves behind. -/
structure Outcome where
  output : List String
  journal : Journal
  /-- Reason why the run ended early, if it did. -/
  stop : Option Stop

/-- A run on arguments, with a function that gives the text of a file or the reason
why it cannot be read. -/
def run (args : List String) (textOf : String → Except FileFault String) : Outcome :=
  let session := do
    let (preset, settings) ← configure args textOf
    exhibit preset settings
  let outcome (c : Console) (stop : Option Stop) : Outcome :=
    ⟨c.output.toList, c.surroundings.journal, stop⟩
  match session { surroundings := { source := .ofSeed 0 } } with
  | .ok () c => outcome c none
  | .error stop c => outcome c (some stop)

namespace Outcome

/-- Exit code of the run. -/
def code (o : Outcome) : UInt8 :=
  match o.stop with
  | none => 0
  | some (.refused _) => 1
  | some (.fault _) => 101

/-- Journal of the run, a refusal included. -/
def events (o : Outcome) : List Event :=
  match o.stop with
  | some (.refused e) => o.journal.toList ++ [.refused e.message]
  | some (.fault _) | none => o.journal.toList

/-- Text on the error channel: what a logger writes for the events, and the refusal. -/
def complaints (o : Outcome) (logger : Logger) : String :=
  let refusal := match o.stop with
    | some (.refused e) => "error: " ++ e.message ++ "\n"
    | some (.fault _) | none => ""
  .join (o.events.map (·.written logger)) ++ refusal

end Outcome

end PlantGrowth.Demonstration
