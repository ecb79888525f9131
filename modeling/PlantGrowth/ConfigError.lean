import PlantGrowth.Json.Error

/-!
# Refused configurations

Settings and species are checked before anything grows. A refusal names the field and
the value at fault.
-/

namespace PlantGrowth

/-- Reason why a setting is refused. -/
inductive SettingFault where
  | notPositive (value : Scalar)
  | notRange (lo hi : Scalar)
  | negative
  | invalidFlow
  | noIterations
  | notUnsigned (text : String)

/-- The reason in words. -/
def SettingFault.text : SettingFault → String
  | notPositive value => "must be positive, got " ++ Decimal.plain value
  | notRange lo hi =>
    "expected 0 < lo <= hi, got (" ++ Decimal.plain lo ++ ", " ++ Decimal.plain hi ++ ")"
  | negative => "must not be negative"
  | invalidFlow => "scales must be non-zero and min_change <= max_change"
  | noIterations => "must be at least 1"
  | notUnsigned text => "not an unsigned integer: " ++ text

/-- Reason why a file cannot be read. -/
inductive FileFault where
  /-- The system gives a reason, which has a number. -/
  | system (reason : String) (number : Nat)
  /-- The bytes of the file are no text. -/
  | notText

/-- The reason in words. -/
def FileFault.text : FileFault → String
  | system reason number => s!"{reason} (os error {number})"
  | notText => "stream did not contain valid UTF-8"

/-- Reason why a species or the settings are refused. -/
inductive ConfigError where
  /-- The first letter is blank. -/
  | blankSeed (species : String)
  | nonPositive (species field : String) (value : Scalar)
  | noIterations (species : String)
  /-- A rule without a text to choose. -/
  | emptyRule (species : String) (letter : Char)
  | invalidSetting (field : String) (fault : SettingFault)
  | unknownPreset (name : String)
  /-- The settings file cannot be read. -/
  | file (fault : FileFault)
  /-- The settings are not written properly. -/
  | json (error : Json.Error)

/-- The reason in words. -/
def ConfigError.message : ConfigError → String
  | blankSeed species => s!"plant '{species}' has a blank axiom"
  | nonPositive species field value =>
    s!"plant '{species}': {field} must be positive (got " ++ Decimal.plain value ++ ")"
  | noIterations species => s!"plant '{species}' must run at least one iteration"
  | emptyRule species letter => s!"plant '{species}': rule for '{letter}' has no alternatives"
  | invalidSetting field fault => s!"invalid setting {field}: " ++ fault.text
  | unknownPreset name => "unknown plant preset: " ++ name
  | file fault => "settings file error: " ++ fault.text
  | json error => "settings parse error: " ++ error.message

end PlantGrowth
