import PlantGrowth.CommandLine

/-!
# Program

Runs the demonstration on the arguments of the command line. Of the journal, the errors
go to the error channel.
-/

namespace PlantGrowth.Main

/-- Reason why a file cannot be read. -/
def faultOf : IO.Error → FileFault
  | .userError _ => .notText
  | .unexpectedEof => .system "unexpected end of file" 0
  | .alreadyExists _ number reason | .otherError number reason | .resourceBusy number reason
  | .resourceVanished number reason | .unsupportedOperation number reason
  | .hardwareFault number reason | .unsatisfiedConstraints number reason
  | .illegalOperation number reason | .protocolError number reason
  | .timeExpired number reason | .interrupted _ number reason
  | .noFileOrDirectory _ number reason | .invalidArgument _ number reason
  | .permissionDenied _ number reason | .resourceExhausted _ number reason
  | .inappropriateType _ number reason | .noSuchThing _ number reason =>
    .system reason number.toNat

/-- Text of a file, or the reason why it cannot be read. -/
def readText (path : String) : IO (Except FileFault String) := do
  try
    return .ok (← IO.FS.readFile path)
  catch e =>
    return .error (faultOf e)

/-- A logger that shows errors only, each on a line with its origin. -/
def errorLogger : Logger
  | .error, origin, text => s!"[{Level.error.name} {origin}] {text}\n"
  | .warn, _, _ | .info, _, _ | .debug, _, _ => ""

end PlantGrowth.Main

open PlantGrowth in
def main (args : List String) : IO UInt32 := do
  let file ← match args[2]? with
    | some path => Main.readText path
    | none => pure (.ok "")
  let outcome := Demonstration.run args fun _ => file
  outcome.output.forM IO.println
  IO.eprint (outcome.complaints Main.errorLogger)
  return outcome.code.toUInt32
