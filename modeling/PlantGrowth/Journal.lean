import PlantGrowth.Vec
import PlantGrowth.Decimal.Text

/-!
# Journal of a run

Notable events are recorded while a plant is built. Each has a level of urgency,
the part of the program it comes from, and a text. A logger is handed these three and
decides what is written.
-/

namespace PlantGrowth

/-- Urgency of a journal entry, the most urgent first. -/
inductive Level where
  | error
  | warn
  | info
  | debug

/-- Name of the level as it stands in front of a line. -/
def Level.name : Level → String
  | error => "ERROR"
  | warn => "WARN"
  | info => "INFO"
  | debug => "DEBUG"

/-- What is written for a level, an origin and a text, nothing if it is not shown. -/
abbrev Logger := Level → String → String → String

/-- Notable event. -/
inductive Event where
  /-- A closing bracket without an opening one. -/
  | strayBracket (letter : Char)
  /-- The expansion of a letter ended with open brackets. -/
  | unclosedBrackets (letter : Char) (count : Nat)
  /-- The first letter of a plant is one that makes no node. -/
  | inertSeed (letter : Char)
  /-- A plant was created from its first letter. -/
  | created (seed : Char) (rules : Nat) (origin : Vec)
  /-- A generation was completed. -/
  | generation (number : UInt32) (nodes : Nat) (age : UInt32) (replaced bridged freed : Nat)
  /-- A generation met texts whose brackets do not match. -/
  | unbalanced (species : String) (generation : UInt32) (stray : UInt32) (unclosed : Nat)
  /-- A plant of a species went through its generations. -/
  | raised (species : String) (generations : UInt32) (nodes : Nat) (age : UInt32)
  /-- Settings were read. -/
  | settingsLoaded (seed : UInt64)
  /-- The demonstration starts. -/
  | started (species : String) (seed : UInt64)
  /-- A frame of the demonstration was drawn. -/
  | frame (number : Nat) (segments buds vertices : Nat)
  /-- The demonstration could not run. -/
  | refused (reason : String)

namespace Event

/-- Urgency of the event. -/
def level : Event → Level
  | strayBracket .. | unclosedBrackets .. | inertSeed .. | unbalanced .. => .warn
  | created .. | raised .. | settingsLoaded .. | started .. => .info
  | generation .. | frame .. => .debug
  | refused .. => .error

/-- Part of the program that the event comes from. -/
def origin : Event → String
  | strayBracket .. => "grove::sim::dispatch"
  | unclosedBrackets .. => "grove::sim::rewrite"
  | inertSeed .. | created .. | generation .. => "grove::sim::lsystem"
  | unbalanced .. | raised .. => "grove::plants"
  | settingsLoaded .. => "grove::settings"
  | started .. | frame .. => "grove::native"
  | refused .. => "grove"

/-- The event in words. -/
def text : Event → String
  | strayBracket c => s!"Unmatched '{c}' ignored"
  | unclosedBrackets c n => s!"Expansion of '{c}' left {n} bracket(s) open"
  | inertSeed c => s!"Axiom '{c}' activates nothing, using a placeholder"
  | created c rules origin =>
    let x := Decimal.fixedTenth origin.x
    let y := Decimal.fixedTenth origin.y
    s!"L-system created: axiom '{c}', {rules} rule(s), origin ({x}, {y})"
  | generation number nodes age replaced bridged freed =>
    s!"Generation {number}: {nodes} symbols, age {age}, {replaced} rewritten, " ++
      s!"{bridged} bridged, {freed} slot(s) freed"
  | unbalanced species number stray unclosed =>
    s!"{species}: unbalanced brackets in generation {number} " ++
      s!"({stray} stray, {unclosed} unclosed)"
  | raised species generations nodes age =>
    s!"Grew {species}: {generations} iterations, {nodes} symbols, age {age}"
  | settingsLoaded seed => s!"Loaded settings (seed {seed})"
  | started species seed => s!"Grove starting: {species} (seed {seed})"
  | frame number segments buds vertices =>
    s!"Frame {number}: {segments} segments, {buds} buds, {vertices} vertices"
  | refused reason => reason

/-- What a logger writes for the event. -/
def written (e : Event) (logger : Logger) : String := logger e.level e.origin e.text

end Event

/-- Events in the order in which they happened. -/
abbrev Journal := Array Event

end PlantGrowth
