import PlantGrowth.Json.Error

/-!
# Words, strings and numbers of JSON text

The smallest parts of JSON text, read from the front of a list of characters. A number
is read into a 64-bit word and a power of ten: digits that the word cannot take any
more count only as powers of ten before the point and not at all behind it. Its value
is the word times or divided by the power, rounded at each step to double precision.
-/

namespace PlantGrowth.Json

/-- Reading of a value from the front of a text. -/
abbrev Reader := StateT (List Char) (Except Error)

namespace Reader

/-- The next character, which stays in place. -/
def look : Reader (Option Char) := fun s => .ok (s.head?, s)

/-- Steps over one character. -/
def skip : Reader Unit := fun s => .ok ((), s.tail)

/-- Whether the character is blank space between values. -/
def isBlank (c : Char) : Bool := c = ' ' || c = '\n' || c = '\t' || c = '\r'

/-- The next character that is not blank, which stays in place. -/
def lookPast : Reader (Option Char) := fun s =>
  let rest := s.dropWhile isBlank
  .ok (rest.head?, rest)

/-- Steps over the characters of a word. -/
def word : List Char → Reader Unit
  | [] => return
  | c :: cs => do
    match ← look with
    | none => throw .endInValue
    | some d =>
      skip
      if c = d then word cs else throw .wordExpected

/-! ## Strings -/

/-- Value of a hexadecimal digit. -/
def hexDigit? (c : Char) : Option Nat :=
  if c.isDigit then some (c.toNat - 48)
  else if 'a' ≤ c && c ≤ 'f' then some (c.toNat - 87)
  else if 'A' ≤ c && c ≤ 'F' then some (c.toNat - 55)
  else none

/-- Number of four hexadecimal digits. A text of fewer than four bytes is too short
for them. -/
def hexWord : Reader Nat := fun s =>
  let four := s.take 4
  if four.foldl (· + Char.utf8Size ·) 0 < 4 then .error .endInString
  else
    match four.mapM hexDigit? with
    | some ds => .ok (ds.foldl (16 * · + ·) 0, s.drop 4)
    | none => .error .invalidEscape

/-- Steps over a character inside an escape for a pair of surrogates. -/
def surrogateMark (mark : Char) : Reader Unit := do
  match ← look with
  | none => throw .endInString
  | some c => if c = mark then skip else throw .unfinishedSurrogate

/-- Character of a numeric escape. A character beyond sixteen bits is written as a pair
of surrogates. -/
def numericEscape : Reader Char := do
  let high ← hexWord
  if 0xDC00 ≤ high ∧ high ≤ 0xDFFF then throw .loneSurrogate
  if high < 0xD800 ∨ 0xDBFF < high then return .ofNat high
  -- the first half of a pair, so the second must follow
  surrogateMark '\\'
  surrogateMark 'u'
  let low ← hexWord
  if low < 0xDC00 ∨ 0xDFFF < low then throw .loneSurrogate
  return .ofNat ((high - 0xD800) * 0x400 + (low - 0xDC00) + 0x10000)

/-- Character of a short escape. -/
def shortEscape? : Char → Option Char
  | '"' => some '"'
  | '\\' => some '\\'
  | '/' => some '/'
  | 'b' => some '\x08'
  | 'f' => some '\x0c'
  | 'n' => some '\n'
  | 'r' => some '\r'
  | 't' => some '\t'
  | _ => none

/-- Character of an escape, after its backslash. `numeric` reads the numeric ones. -/
def escapeWith {α : Type} (short : Char → α) (numeric : Reader α) : Reader α := do
  match ← look with
  | none => throw .endInString
  | some 'u' =>
    skip
    numeric
  | some c =>
    skip
    match shortEscape? c with
    | some d => return short d
    | none => throw .invalidEscape

/-- The characters up to the closing quote, in at most `steps` steps. -/
def stringChars {α : Type} (plain : Char → α) (escape : Reader α) : Nat → Reader (List α)
  | 0 => throw .endInString
  | steps + 1 => do
    match ← look with
    | none => throw .endInString
    | some c =>
      skip
      if c = '"' then return []
      let a ←
        if c = '\\' then escape
        else if c.toNat < 32 then throw .controlCharacter
        else pure (plain c)
      return a :: (← stringChars plain escape steps)

/-- The string after its opening quote. -/
def string : Reader String := do
  let cs ← stringChars id (escapeWith id numericEscape) ((← get).length + 1)
  return .ofList cs

/-- Steps over a string after its opening quote. Surrogates need not form pairs. -/
def skipString : Reader Unit := do
  let _ ← stringChars (fun _ => ()) (escapeWith (fun _ => ()) (discard hexWord))
    ((← get).length + 1)

/-! ## Numbers -/

/-- Number as written. -/
inductive Number where
  | natural (n : Nat)
  /-- A number below zero, without its sign. -/
  | negative (n : Nat)
  | float (x : Float)

/-- The digits at the front of the text. -/
def digits : Reader (List Nat) := fun s =>
  .ok ((s.takeWhile Char.isDigit).map (·.toNat - 48), s.dropWhile Char.isDigit)

/-- A word with as many of the digits appended as it can take, and the digits left. -/
def absorb (word : Nat) : List Nat → Nat × List Nat
  | [] => (word, [])
  | d :: ds => if 10 * word + d < UInt64.size then absorb (10 * word + d) ds else (word, d :: ds)

/-- Double-precision power of ten. -/
def power (k : Nat) : Float := Float.ofScientific 1 false k

/-- A number times a power of ten. Powers below `10 ^ -308` are divided off in parts;
three parts bring every word to zero. -/
def scaleBy (x : Float) (exponent : Int) : Nat → Except Error Float
  | 0 => .ok x
  | parts + 1 =>
    if exponent.natAbs ≤ 308 then
      if 0 ≤ exponent then
        let y := x * power exponent.toNat
        if y.isInf then .error .numberOutOfRange else .ok y
      else .ok (x / power exponent.natAbs)
    else if x == 0 then .ok x
    else if 0 ≤ exponent then .error .numberOutOfRange
    else scaleBy (x / power 308) (exponent + 308) parts

/-- Double-precision number of a word. -/
def wordFloat (word : Nat) : Float := (UInt64.ofNat word).toFloat

/-- The number with the sign written in front of it. -/
def withSign (negative : Bool) (x : Float) : Float := if negative then -x else x

/-- The value of a word and a power of ten. -/
def scaled (negative : Bool) (word : Nat) (exponent : Int) : Reader Float := do
  let x ← scaleBy (wordFloat word) exponent 4
  return withSign negative x

/-- Whether the text goes on with an exponent part. -/
def atExponent : Reader Bool := do
  match ← look with
  | some c => return c = 'e' || c = 'E'
  | none => return false

/-- The value of a word and a power of ten whose exponent part follows. -/
def exponentPart (negative : Bool) (word : Nat) (start : Int) : Reader Float := do
  skip
  let falling ← match ← look with
    | some '+' => do skip; pure false
    | some '-' => do skip; pure true
    | _ => pure false
  match ← look with
  | none => throw .endInValue
  | some c => if !c.isDigit then throw .invalidNumber
  let written : Nat := (← digits).foldl (10 * · + ·) 0
  -- beyond every number: out of range, or zero
  if UInt32.size / 2 ≤ written then
    if word ≠ 0 ∧ !falling then throw .numberOutOfRange
    return withSign negative 0
  scaled negative word (if falling then start - written else start + written)

/-- The value of a word and a power of ten, with an exponent part if there is one. -/
def finish (negative : Bool) (word : Nat) (exponent : Int) : Reader Float := do
  if ← atExponent then exponentPart negative word exponent
  else scaled negative word exponent

/-- The value of a word and a power of ten whose fraction follows. -/
def fraction (negative : Bool) (word : Nat) (exponent : Int) : Reader Float := do
  skip
  let ds ← digits
  if ds.isEmpty then
    match ← look with
    | none => throw .endInValue
    | some _ => throw .invalidNumber
  let (word, left) := absorb word ds
  finish negative word (exponent - (ds.length - left.length))

/-- Number without fraction and exponent. The word of a number below zero must fit
sixty-three bits, and zero below zero is not an integer. -/
def integer (negative : Bool) (word : Nat) : Number :=
  if !negative then .natural word
  else if word = 0 ∨ UInt64.size / 2 < word then .float (-wordFloat word)
  else .negative word

/-- Digits of the whole part. A zero stands alone. -/
def wholeDigits : Reader (List Nat) := do
  match ← look with
  | none => throw .endInValue
  | some c =>
    if !c.isDigit then throw .invalidNumber
    let ds ← digits
    if c = '0' ∧ 1 < ds.length then throw .invalidNumber
    return ds

/-- Number after its sign. -/
def number (negative : Bool) : Reader Number := do
  let (word, left) := absorb 0 (← wholeDigits)
  let exponent : Int := left.length
  match ← look with
  | some '.' => return .float (← fraction negative word exponent)
  | some _ | none =>
    if ← atExponent then return .float (← exponentPart negative word exponent)
    if left.isEmpty then return integer negative word
    return .float (← scaled negative word exponent)

/-- Steps over a number after its sign. -/
def skipNumber : Reader Unit := do
  match ← look with
  | none => throw .invalidNumber
  | some _ => discard wholeDigits
  if (← look) = some '.' then
    skip
    if (← digits).isEmpty then throw .invalidNumber
  if ← atExponent then
    skip
    match ← look with
    | some '+' | some '-' => skip
    | _ => pure ()
    if (← digits).isEmpty then throw .invalidNumber

end Reader

end PlantGrowth.Json
