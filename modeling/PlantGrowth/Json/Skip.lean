import PlantGrowth.Json.Lexical

/-!
# Values that nobody reads

Fields with unknown names are stepped over. The text of their values must be JSON,
but nothing of it is kept, and it may be nested to any depth.
-/

namespace PlantGrowth.Json

/-- Array or object whose end has not been met. -/
inductive Bracket where
  | array
  | object
  deriving DecidableEq

namespace Bracket

/-- Closing character. -/
def closing : Bracket → Char
  | array => ']'
  | object => '\x7d'

/-- Error of a text that ends inside. -/
def endInside : Bracket → Error
  | array => .endInArray
  | object => .endInObject

/-- Error of a value that nothing suitable follows. -/
def endExpected : Bracket → Error
  | array => .elementEndExpected
  | object => .memberEndExpected

end Bracket

/-- Place inside a value that is stepped over. -/
inductive Place where
  /-- A value comes next. -/
  | value
  /-- An array or object was opened. -/
  | opened
  /-- A value in an array or object ended. -/
  | ended

namespace Reader

/-- Steps over the key of a member and the colon behind it. -/
def skipKey : Reader Unit := do
  match ← lookPast with
  | none => throw .endInObject
  | some c => if c = '"' then skip else throw .keyExpected
  skipString
  match ← lookPast with
  | none => throw .endInObject
  | some c => if c = ':' then skip else throw .colonExpected

/-- Steps over a value that is no array and no object. -/
def skipScalar (c : Char) : Reader Unit := do
  match c with
  | 'n' => word ['n', 'u', 'l', 'l']
  | 't' => word ['t', 'r', 'u', 'e']
  | 'f' => word ['f', 'a', 'l', 's', 'e']
  | '"' =>
    skip
    skipString
  | '-' =>
    skip
    skipNumber
  | c => if c.isDigit then skipNumber else throw .valueExpected

/-- Bracket that a character opens. -/
def opening? : Char → Option Bracket
  | '[' => some .array
  | '\x7b' => some .object
  | _ => none

/-- Steps over the rest of a value, in at most `steps` steps. `inside` holds the open
arrays and objects, the innermost first. -/
def skipFrom : Nat → Place → List Bracket → Reader Unit
  | 0, _, _ => throw .endInValue
  | steps + 1, .value, inside => do
    match ← lookPast with
    | none => throw .endInValue
    | some c =>
      match opening? c with
      | some b =>
        skip
        skipFrom steps .opened (b :: inside)
      | none =>
        skipScalar c
        if !inside.isEmpty then skipFrom steps .ended inside
  | _ + 1, _, [] => return
  | steps + 1, place, b :: outside => do
    let after := match place with
      | .ended => true
      | _ => false
    match ← lookPast with
    | none => throw b.endInside
    | some c =>
      if c = b.closing then
        skip
        if !outside.isEmpty then skipFrom steps .ended outside
      else
        -- behind an element comes a comma, behind an opening bracket the first element
        if after then
          if c = ',' then skip else throw b.endExpected
        if b = .object then skipKey
        skipFrom steps .value (b :: outside)

/-- Steps over a value. Every second step at least takes a character. -/
def skipValue : Reader Unit := do
  skipFrom (2 * (← get).length + 2) .value []

end Reader

end PlantGrowth.Json
