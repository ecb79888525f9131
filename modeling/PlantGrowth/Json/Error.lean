import PlantGrowth.Decimal.Text
import PlantGrowth.Text.Quoted

/-!
# Errors of JSON text

Reading stops at the first error. A text can end too early, break the rules of JSON,
or hold a value that does not fit what is read. `Error.message` puts the error into words.
-/

namespace PlantGrowth.Json

/-- Value found in place of another. -/
inductive Found where
  | null
  | boolean (b : Bool)
  | integer (i : Int)
  | number (x : Float)
  | string (s : String)
  | array
  | object

/-- The value in words. -/
def Found.text : Found → String
  | null => "null"
  | boolean b => s!"boolean `{b}`"
  | integer i => s!"integer `{i}`"
  | number x => "floating point `" ++ .ofList ((Decimal.jsonFloat? x).getD []) ++ "`"
  | string s => "string " ++ Text.quoted s
  | array => "sequence"
  | object => "map"

/-- Reason why a text is not read. -/
inductive Error where
  | endInValue
  | endInArray
  | endInObject
  | endInString
  | colonExpected
  | elementEndExpected
  | memberEndExpected
  | wordExpected
  | valueExpected
  | invalidEscape
  | invalidNumber
  | numberOutOfRange
  | controlCharacter
  | keyExpected
  | loneSurrogate
  | unfinishedSurrogate
  | trailingComma
  | trailingCharacters
  | wrongType (found : Found) (expected : String)
  | wrongValue (found : Int) (expected : String)
  | wrongLength (length : Nat) (expected : String)
  | missingField (name : String)
  | duplicateField (name : String)

namespace Error

/-- The error in words. -/
def message : Error → String
  | endInValue => "EOF while parsing a value"
  | endInArray => "EOF while parsing a list"
  | endInObject => "EOF while parsing an object"
  | endInString => "EOF while parsing a string"
  | colonExpected => "expected `:`"
  | elementEndExpected => "expected `,` or `]`"
  | memberEndExpected => "expected `,` or `\x7d`"
  | wordExpected => "expected ident"
  | valueExpected => "expected value"
  | invalidEscape => "invalid escape"
  | invalidNumber => "invalid number"
  | numberOutOfRange => "number out of range"
  | controlCharacter =>
    "control character (\\u0000-\\u001F) found while parsing a string"
  | keyExpected => "key must be a string"
  | loneSurrogate => "lone leading surrogate in hex escape"
  | unfinishedSurrogate => "unexpected end of hex escape"
  | trailingComma => "trailing comma"
  | trailingCharacters => "trailing characters"
  | wrongType found expected =>
    "invalid type: " ++ found.text ++ ", expected " ++ expected
  | wrongValue found expected => s!"invalid value: integer `{found}`, expected {expected}"
  | wrongLength length expected => s!"invalid length {length}, expected {expected}"
  | missingField name => s!"missing field `{name}`"
  | duplicateField name => s!"duplicate field `{name}`"

end Error

end PlantGrowth.Json
