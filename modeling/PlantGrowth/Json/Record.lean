import PlantGrowth.Json.Skip
import PlantGrowth.Scalar

/-!
# Values of known types

Readers for the types that settings are made of: numbers, truth values, values that
may be missing, sequences of fixed length and records. A record is an object with the
names of its fields, in any order and among unknown ones, or an array of its fields
in their order.
-/

namespace PlantGrowth.Json

namespace Reader

/-- The error of a value that is not of the expected type. -/
def mismatch {α : Type} (expected : String) : Reader α := do
  let ofNumber (n : Number) : Found := match n with
    | .natural n => .integer n
    | .negative n => .integer (-n)
    | .float x => .number x
  match ← look with
  | some 'n' =>
    word ['n', 'u', 'l', 'l']
    throw (.wrongType .null expected)
  | some 't' =>
    word ['t', 'r', 'u', 'e']
    throw (.wrongType (.boolean true) expected)
  | some 'f' =>
    word ['f', 'a', 'l', 's', 'e']
    throw (.wrongType (.boolean false) expected)
  | some '-' =>
    skip
    throw (.wrongType (ofNumber (← number true)) expected)
  | some '"' =>
    skip
    throw (.wrongType (.string (← string)) expected)
  | some '[' => throw (.wrongType .array expected)
  | some '\x7b' => throw (.wrongType .object expected)
  | some c =>
    if c.isDigit then throw (.wrongType (ofNumber (← number false)) expected)
    else throw .valueExpected
  | none => throw .endInValue

/-- A number, or the error for another value. -/
def numberOr (expected : String) : Reader Number := do
  match ← lookPast with
  | none => throw .endInValue
  | some '-' =>
    skip
    number true
  | some c => if c.isDigit then number false else mismatch expected

/-- Single-precision number. Integers are rounded once, others by way of double
precision. -/
def scalar : Reader Scalar := do
  match ← numberOr "f32" with
  | .natural n => return (UInt64.ofNat n).toFloat32
  | .negative n => return -(UInt64.ofNat n).toFloat32
  | .float x => return .ofFloat x

/-- Whole number below a bound, whose type is called `expected`. -/
def natural (expected : String) (bound : Nat) : Reader Nat := do
  match ← numberOr expected with
  | .natural n => if n < bound then return n else throw (.wrongValue n expected)
  | .negative n => throw (.wrongValue (-n) expected)
  | .float x => throw (.wrongType (.number x) expected)

def word32 : Reader UInt32 := do return .ofNat (← natural "u32" UInt32.size)

def word64 : Reader UInt64 := do return .ofNat (← natural "u64" UInt64.size)

/-- Truth value. -/
def boolean : Reader Bool := do
  match ← lookPast with
  | none => throw .endInValue
  | some 't' =>
    word ['t', 'r', 'u', 'e']
    return true
  | some 'f' =>
    word ['f', 'a', 'l', 's', 'e']
    return false
  | some _ => mismatch "a boolean"

/-- A value, or `null` for none. -/
def optional {α : Type} (value : Reader α) : Reader (Option α) := do
  match ← lookPast with
  | some 'n' =>
    word ['n', 'u', 'l', 'l']
    return none
  | _ => return some (← value)

/-! ## Sequences -/

/-- The element of an array at index `i`, if the array has one. -/
def element? {α : Type} (i : Nat) (value : Reader α) : Reader (Option α) := do
  match ← lookPast with
  | none => throw .endInArray
  | some ']' => return none
  | some c =>
    if i ≠ 0 then
      if c = ',' then skip else throw .elementEndExpected
      -- a comma promises an element
      match ← lookPast with
      | none => throw .endInValue
      | some ']' => throw .trailingComma
      | some _ => pure ()
    return some (← value)

/-- The element of an array at index `i`. -/
def element {α : Type} (expected : String) (i : Nat) (value : Reader α) : Reader α := do
  match ← element? i value with
  | some a => return a
  | none => throw (.wrongLength i expected)

/-- Steps over the end of an array. -/
def closeArray : Reader Unit := do
  match ← lookPast with
  | none => throw .endInArray
  | some ']' => skip
  | some ',' =>
    skip
    match ← lookPast with
    | some ']' => throw .trailingComma
    | _ => throw .trailingCharacters
  | some _ => throw .trailingCharacters

/-- An array whose elements are read by `elements`. -/
def array {α : Type} (expected : String) (elements : Reader α) : Reader α := do
  match ← lookPast with
  | none => throw .endInValue
  | some '[' =>
    skip
    let a ← elements
    closeArray
    return a
  | some _ => mismatch expected

/-- Two numbers. -/
def pairOf (expected : String) : Reader (Scalar × Scalar) :=
  array expected do
    let a ← element expected 0 scalar
    let b ← element expected 1 scalar
    return (a, b)

def pair : Reader (Scalar × Scalar) := pairOf "a tuple of size 2"

/-- Four numbers. -/
def quadruple : Reader (Scalar × Scalar × Scalar × Scalar) :=
  let expected := "a tuple of size 4"
  array expected do
    let a ← element expected 0 scalar
    let b ← element expected 1 scalar
    let c ← element expected 2 scalar
    let d ← element expected 3 scalar
    return (a, b, c, d)

end Reader

/-! ## Records -/

/-- Field of a record of type `ρ`. -/
structure Field (ρ : Type) where
  name : String
  /-- Reads the value of the field; the result puts it into a record. -/
  read : Reader (ρ → ρ)
  /-- Whether an object must have the field. -/
  required : Bool := true

/-- Written form of the records of type `ρ`. -/
structure RecordFormat (ρ : Type) where
  name : String
  fields : List (Field ρ)
  /-- The record before any field is read. -/
  blank : ρ
  /-- Whether an array may end before its last field. -/
  openEnded : Bool := false

namespace RecordFormat

variable {ρ : Type}

open Reader

/-- The type in words. -/
def expected (f : RecordFormat ρ) : String := "struct " ++ f.name

/-- The type and its number of fields in words. -/
def expectedLength (f : RecordFormat ρ) : String :=
  let unit := if f.fields.length = 1 then "element" else "elements"
  s!"{f.expected} with {f.fields.length} {unit}"

/-- The fields of an array from index `i` on, put into a record. -/
def elements (f : RecordFormat ρ) : Nat → List (Field ρ) → ρ → Reader ρ
  | _, [], record => return record
  | i, field :: rest, record => do
    match ← element? i field.read with
    | some put => elements f (i + 1) rest (put record)
    | none => if f.openEnded then return record else throw (.wrongLength i f.expectedLength)

/-- Whether an object has a further member, whose opening quote is then stepped over. -/
def member? (first : Bool) : Reader Bool := do
  match ← lookPast with
  | none => throw .endInObject
  | some '\x7d' => return false
  | some c =>
    if !first then
      if c = ',' then skip else throw .memberEndExpected
    match ← lookPast with
    | some '"' =>
      skip
      return true
    | some '\x7d' => throw .trailingComma
    | some _ => throw .keyExpected
    | none => throw .endInValue

/-- Steps over the colon behind a key. -/
def colon : Reader Unit := do
  match ← lookPast with
  | none => throw .endInObject
  | some c => if c = ':' then skip else throw .colonExpected

/-- The members of an object put into a record, in at most `steps` steps. `seen` holds
the names of the fields read before. -/
def members (f : RecordFormat ρ) : Nat → List String → Bool → ρ → Reader (ρ × List String)
  | 0, _, _, _ => throw .endInObject
  | steps + 1, seen, first, record => do
    if !(← member? first) then return (record, seen)
    let key ← string
    match f.fields.find? (·.name = key) with
    | some field =>
      -- a repeated name is refused before its value is read
      if seen.contains key then throw (.duplicateField key)
      colon
      let put ← field.read
      members f steps (key :: seen) false (put record)
    | none =>
      colon
      skipValue
      members f steps seen false record

/-- Record in an object. -/
def object (f : RecordFormat ρ) : Reader ρ := do
  let (record, seen) ← members f ((← get).length + 1) [] true f.blank
  match f.fields.find? fun field => field.required && !seen.contains field.name with
  | some field => throw (.missingField field.name)
  | none => skip
  return record

/-- Record. -/
def reader (f : RecordFormat ρ) : Reader ρ := do
  match ← lookPast with
  | none => throw .endInValue
  | some '[' =>
    skip
    let record ← f.elements 0 f.fields f.blank
    closeArray
    return record
  | some '\x7b' =>
    skip
    f.object
  | some _ => mismatch f.expected

end RecordFormat

/-- The value of a whole text. -/
def read {α : Type} (value : Reader α) (text : String) : Except Error α := do
  let (a, rest) ← value text.toList
  match rest.dropWhile Reader.isBlank with
  | [] => return a
  | _ => throw .trailingCharacters

end PlantGrowth.Json
