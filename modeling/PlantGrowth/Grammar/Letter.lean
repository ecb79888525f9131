/-!
# Letters and their actions

A letter of a plant's word is an instruction to the turtle that draws it. Upper and
lower case of the Latin letters mean the same action. Some actions leave a node behind
(`Action.makesNode`); the others only move or turn the turtle.
-/

namespace PlantGrowth

/-- What the turtle does on reading a letter. -/
inductive Action where
  /-- Grow a bud. -/
  | bud
  /-- Grow a branch segment. -/
  | branch
  /-- Turn counter-clockwise. -/
  | turnLeft
  /-- Turn clockwise. -/
  | turnRight
  /-- Remember the place. -/
  | save
  /-- Return to the place remembered last. -/
  | restore
  /-- Leave a node that passes its joint on; the action of every other letter. -/
  | placeholder
  deriving DecidableEq

namespace Action

/-- Action of a letter. -/
def ofLetter (c : Char) : Action :=
  match c.toUpper with
  | 'S' | 'X' | 'A' | 'B' => bud
  | 'F' | 'G' => branch
  | '+' => turnLeft
  | '-' => turnRight
  | '[' => save
  | ']' => restore
  | _ => placeholder

/-- Whether the action leaves a node behind. -/
def makesNode : Action → Bool
  | bud | branch | placeholder => true
  | turnLeft | turnRight | save | restore => false

end Action

/-- Letter with its action and with what the grammar says about it. -/
structure Letter where
  char : Char
  action : Action
  /-- Whether the grammar replaces the letter. -/
  hasRule : Bool
  deriving DecidableEq

end PlantGrowth
