import PlantGrowth.Species.Basic

/-!
# Preset species

Four flowers and three trees. A preset is found by its name, whatever its case and the
blanks around it (`Preset.ofName?_name`).
-/

namespace PlantGrowth

/-- Named species. -/
inductive Preset where
  | flower1
  | flower2
  | flower3
  | flower4
  | tree
  | tree2
  | tree3
  deriving DecidableEq

namespace Preset

def all : List Preset := [flower1, flower2, flower3, flower4, tree, tree2, tree3]

def name : Preset → String
  | flower1 => "flower1"
  | flower2 => "flower2"
  | flower3 => "flower3"
  | flower4 => "flower4"
  | tree => "tree"
  | tree2 => "tree2"
  | tree3 => "tree3"

/-- Preset of a name. The names have only letters that no letter outside the Latin
alphabet turns into when its case is folded, so folding the Latin letters is enough. -/
def ofName? (text : String) : Option Preset :=
  let folded := (Text.trim text.toList).map Char.toLower
  all.find? fun p => p.name.toList = folded

/-- Preset of a name, or the refusal of an unknown one. -/
def ofName (text : String) : Except ConfigError Preset :=
  match ofName? text with
  | some p => .ok p
  | none => .error (.unknownPreset text)

/-- The species of a preset. -/
def species (p : Preset) : Species :=
  match p with
  | flower1 => {
      name := p.name, seed := 'S'
      rules := .ofList [
        ('S', .fixed "X"),
        ('X', .choice ["F[-X][+X]X"]),
        ('F', .choice ["F", "Ff"])]
      length := 3.5, angle := 27, leafSize := 2, iterations := 5, branchWidthScale := 0.8 }
  | flower2 => {
      name := p.name, seed := 'S'
      rules := .ofList [
        ('S', .fixed "X"),
        ('X', .choice ["[-FX][FX][+FX]"]),
        ('F', .choice ["FF", "Ff"])]
      length := 3, angle := 3, leafSize := 3, iterations := 3, branchWidthScale := 1.2 }
  | flower3 => {
      name := p.name, seed := 'S'
      rules := .ofList [
        ('S', .fixed "X"),
        ('X', .choice ["[-FX][FX][+FX]", "X"]),
        ('F', .choice ["Ff"])]
      length := 6, angle := 15, leafSize := 2, iterations := 5, branchWidthScale := 1.2
      colourShift := some { alpha := 10 } }
  | flower4 => {
      name := p.name, seed := 'S'
      rules := .ofList [
        ('S', .fixed "X"),
        ('X', .choice ["F[-X]F[+X]F+[[-X][X]]", "F[[+X][X]]F[+X]F[-X]"]),
        ('F', .choice ["F", "FF", "FF"])]
      length := 2.3, angle := 12, leafSize := 8, iterations := 4, branchWidthScale := 0.3
      colourShift := some { saturation := -10, alpha := -10 } }
  | tree => {
      name := p.name, seed := 'S'
      rules := .ofList [
        ('S', .fixed "gGX"),
        ('G', .fixed "gG"),
        ('X', .choice ["F[-X]F[+X]F+[[-X][X]]"]),
        ('F', .choice ["F", "FF", "FF"])]
      length := 1.5, angle := 27, leafSize := 5, iterations := 7, branchWidthScale := 0.6
      colourShift := some { brightness := -5, alpha := -3 }
      growthSpeedMult := some 1.2 }
  | tree2 => {
      name := p.name, seed := 'X'
      rules := .ofList [
        ('X', .fixed "F[-A]F[+X]Fx[[-X][X]]"),
        ('F', .choice ["FF", "FF"])]
      length := 2.2, angle := 17, leafSize := 5, iterations := 5, branchWidthScale := 0.6
      colourShift := some { hue := 30, alpha := -10 } }
  | tree3 => {
      name := p.name, seed := 'S'
      rules := .ofList [
        ('S', .fixed "ffffX"),
        ('X', .choice ["X", "[-FX][X][+FX]", "[X][+FX]"]),
        ('F', .choice ["F", "Ff"])]
      length := 5, angle := 10, leafSize := 2, iterations := 7, branchWidthScale := 0.5
      colourShift := some { hue := 30, alpha := 15 } }

theorem mem_all (p : Preset) : p ∈ all := by
  cases p <;> decide

/-- Each preset is found by its name. -/
theorem ofName?_name (p : Preset) : ofName? p.name = some p := by
  cases p <;> decide

end Preset

end PlantGrowth
