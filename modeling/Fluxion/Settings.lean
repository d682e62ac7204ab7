import Fluxion.Differentiation
import Fluxion.Duration
import Fluxion.Text.Case
import Fluxion.Trace.Log

/-!
# Settings

What can be configured, the defaults, and the rules that settings have to obey.
-/

namespace Fluxion

/-- The settings of the programs. -/
structure Settings where
  /-- Upper limit for the depths tried by a differentiation; zero for none. -/
  maxIterations : Int := 0
  /-- Write negative powers as quotients again. -/
  restoreDivision : Bool := true
  /-- The name of the least important level that is logged. -/
  logLevel : String := "info"
  /-- Who the log is written for. -/
  logFormat : String := "development"
  /-- The address of the server. -/
  address : String := ":8080"
  /-- How long the server waits for a request. -/
  readTimeout : Duration := .ofSeconds 10
  /-- How long the server takes for a response. -/
  writeTimeout : Duration := .ofSeconds 10
  /-- The longest request body in bytes. -/
  maxBodyBytes : Int := 1048576
  /-- How results are written. -/
  outputFormat : String := "text"
  /-- Whether traces are coloured. -/
  color : Bool := true
deriving DecidableEq, Repr

/-- A rule that settings break. -/
inductive SettingsError where
  /-- The limit for depths is negative. -/
  | negativeIterations (value : Int)
  /-- No level of the log has this name. -/
  | logLevel (value : String)
  /-- The log is written for nobody known. -/
  | logFormat (value : String)
  /-- Results cannot be written like this. -/
  | outputFormat (value : String)
  /-- No request body can be short enough. -/
  | bodyLimit (value : Int)
deriving DecidableEq, Repr

/-- The text of the error. -/
def SettingsError.message : SettingsError → String
  | negativeIterations value =>
    "pipeline.max_iterations must not be negative, got " ++ toString value
  | logLevel value => "log.level: unrecognized level: " ++ Text.quote value
  | logFormat value =>
    "log.format must be development or production, got " ++ Text.unmark (Text.quote value)
  | outputFormat value =>
    "output.format must be text, latex or json, got " ++ Text.unmark (Text.quote value)
  | bodyLimit value => "server.max_body_bytes must be positive, got " ++ toString value

namespace Settings

/-- The level with a name in any case; no name means the level for information. -/
def levelOf? (name : String) : Option Log.Level :=
  if name.isEmpty then some .info
  else Log.Level.all.find? fun l => l.name == Text.lower name

/-- The least important level that is logged. -/
def level (s : Settings) : Except SettingsError Log.Level :=
  match levelOf? s.logLevel with
  | some l => .ok l
  | none => .error (.logLevel s.logLevel)

/-- The first rule that the settings break. -/
def validate (s : Settings) : Except SettingsError Unit := do
  if s.maxIterations < 0 then throw (.negativeIterations s.maxIterations)
  discard s.level
  unless s.logFormat ∈ ["development", "production"] do throw (.logFormat s.logFormat)
  unless s.outputFormat ∈ ["text", "latex", "json"] do throw (.outputFormat s.outputFormat)
  if s.maxBodyBytes ≤ 0 then throw (.bodyLimit s.maxBodyBytes)

/-- The options of a differentiation. -/
def options (s : Settings) : Options := ⟨s.maxIterations, s.restoreDivision⟩

end Settings

end Fluxion
