import Fluxion.CommandLine.Flags
import Fluxion.Settings.Load
import Fluxion.Tool

/-!
# The command line

A command line names a command and gives it flags and an expression. First the command is found, then its
flags are read, its arguments counted and the settings loaded, and then it runs; the first of these that
fails decides the error.
-/

namespace Fluxion.CommandLine

/-- The name of the program. -/
def programName : String := "minimaple"

/-- Why a command line fails. -/
inductive Error where
  /-- There is no such command; `owner` is the command that was to have it. -/
  | unknownCommand (name owner : String) (suggestions : List String)
  /-- The flags cannot be read. -/
  | flags (cause : FlagError)
  /-- There are too few or too many arguments. -/
  | argumentCount (expected received : Nat)
  /-- The settings cannot be loaded. -/
  | settings (cause : Settings.LoadError)
  /-- The log cannot be set up. -/
  | log (cause : SettingsError)
  /-- The expression cannot be read. -/
  | source (cause : ParseError)
  /-- A pass fails. -/
  | pass (cause : PassError Float)
  /-- The differentiation fails. -/
  | failure (cause : Failure Float)
  /-- The result cannot be written. -/
  | output (cause : Json.Unwritable)

namespace Error

/-- The hint at commands with a similar name. -/
def hint (suggestions : List String) : String :=
  if suggestions.isEmpty then ""
  else
    "\n\nDid you mean this?\n" ++ Text.concat (suggestions.map fun s => "\t" ++ s ++ "\n")

/-- The text of the error. -/
def message : Error → String
  | unknownCommand name owner suggestions =>
    "unknown command " ++ Text.quote name ++ " for " ++ Text.quote owner ++ hint suggestions
  | flags cause => cause.message
  | argumentCount expected received =>
    "accepts " ++ toString expected ++ " arg(s), received " ++ toString received
  | settings cause => cause.message
  | log cause => cause.message
  | source cause => cause.message
  | pass cause => cause.message
  | failure cause => cause.message
  | output cause => cause.message

end Error

/-! ### Commands -/

/-- What a command does. -/
inductive Action where
  | differentiate
  | parse
  | expand
  | terms
  | tools
  /-- Tell how the program is used. -/
  | help
deriving DecidableEq, Repr

/-- A command. -/
structure Command where
  /-- Its name. -/
  name : String
  /-- What it does, in a line. -/
  summary : String
  /-- What it does. -/
  action : Action
  /-- Its own flags. -/
  flags : List Flag := []
  /-- It is suggested in place of a name that is not known. -/
  isSuggested : Bool := true

/-- The flags of every command. -/
def sharedFlags : List Flag :=
  [{ name := "config", kind := .text }, { name := "no-color", kind := .switch }]

/-- The flag that asks for help. -/
def helpFlag : Flag := { name := "help", letter := some 'h', kind := .switch }

/-- The commands. -/
def commands : List Command :=
  [{ name := "diff", summary := "Differentiate an expression and print the simplified result"
     action := .differentiate
     flags :=
       [{ name := "var", letter := some 'v', kind := .text },
        { name := "trace", letter := some 't', kind := .switch },
        { name := "latex", kind := .switch },
        { name := "json", kind := .switch },
        { name := "max-iter", kind := .integer },
        { name := "no-restore", kind := .switch }] },
   { name := "parse", summary := "Parse an expression and print it back", action := .parse
     flags := [{ name := "json", kind := .switch }] },
   { name := "expand", summary := "Distribute products and integer powers", action := .expand },
   { name := "terms", summary := "Print the grouped monomials of an expression, one per line"
     action := .terms },
   { name := "tools", summary := "Print the tool schema served by mcp-server", action := .tools },
   { name := "help", summary := "Help about any command", action := .help, isSuggested := false },
   { name := "completion", summary := "Generate the autocompletion script for the specified shell"
     action := .help }]

/-! ### Finding the command -/

/-- The argument is a flag whose value is the next argument. -/
def takesNext (flags : List Flag) (s : String) : Bool :=
  let isSwitch (f : Option Flag) : Bool := (f.map Flag.isSwitch).getD false
  !s.contains '=' &&
    ((s.startsWith "--" && !isSwitch (findFlag? flags (String.ofList (s.toList.drop 2)))) ||
      (s.startsWith "-" && s.utf8ByteSize == 2 &&
        !isSwitch ((s.toList.drop 1).head?.bind (findLetter? flags))))

/-- The arguments that are neither flags nor their values. A flag that takes a value ends the search if
nothing would be left behind the value. -/
def stripFlags (flags : List Flag) : List String → List String
  | [] => []
  | s :: rest =>
    if s == "--" then []
    else if takesNext flags s then
      match rest with
      | _ :: next :: more => stripFlags flags (next :: more)
      | _ => []
    else if s != "" && !s.startsWith "-" then s :: stripFlags flags rest
    else stripFlags flags rest

/-- Remove the first argument that is `name` and not the value of a flag. -/
def removeName (flags : List Flag) (name : String) : List String → List String
  | [] => []
  | s :: rest =>
    if s == "--" then s :: rest
    else if takesNext flags s then
      match rest with
      | value :: more => s :: value :: removeName flags name more
      | [] => [s]
    else if s == name && !s.startsWith "-" then rest
    else s :: removeName flags name rest

/-- One row of the table of edit distances: `previous` is the row above, `diagonal` the entry above and
to the left. -/
def distanceRow (b : UInt8) (left diagonal : Nat) : List UInt8 → List Nat → List Nat
  | c :: cs, up :: previous =>
    let here := if b == c then diagonal else 1 + min (min up left) diagonal
    here :: distanceRow b here up cs previous
  | _, _ => []

/-- The number of insertions, deletions and replacements of bytes between two texts. -/
def editDistance (s t : List UInt8) : Nat :=
  let first := List.range (t.length + 1)
  let last := s.foldl
    (fun row b =>
      match row with
      | corner :: previous => (corner + 1) :: distanceRow b (corner + 1) corner t previous
      | [] => [])
    first
  last.getLastD 0

/-- Two texts differ by at most this many edits if one is suggested for the other. -/
def suggestionDistance : Nat := 2

/-- The names of commands that could have been meant. -/
def suggestions (typed : String) : List String :=
  let lowered := Text.lower typed
  (commands.filter fun c =>
    c.isSuggested &&
      (editDistance (Utf8.bytes lowered) (Utf8.bytes c.name) ≤ suggestionDistance ||
        c.name.startsWith lowered)).map Command.name

/-- The command that the arguments name and the arguments without its name; `none` for the program
itself. -/
def findCommand (arguments : List String) : Except Error (Option Command × List String) :=
  match stripFlags sharedFlags arguments with
  | [] => .ok (none, arguments)
  | name :: _ =>
    match commands.find? fun c => c.name == name with
    | some c => .ok (some c, removeName sharedFlags name arguments)
    | none => .error (.unknownCommand name programName (suggestions name))

/-! ### Running -/

/-- How to use the program. -/
def usage : String :=
  "Differentiate and simplify single-variable expressions\n\nUsage:\n  " ++ programName ++
    " [command]\n\nAvailable Commands:\n" ++
    Text.concat (commands.map fun c => "  " ++ pad 11 c.name ++ " " ++ c.summary ++ "\n")
where
  /-- Fill a text up with spaces. -/
  pad (width : Nat) (s : String) : String :=
    s ++ String.ofList (List.replicate (width - s.length) ' ')

/-- How a derivative is written. -/
inductive Format where
  | text
  | latex
  | json
deriving DecidableEq, Repr

/-- The format that the flags ask for, otherwise that of the settings. -/
def formatOf (settings : Settings) (a : Arguments) : Format :=
  if a.isOn "json" then .json
  else if a.isOn "latex" then .latex
  else
    match settings.outputFormat with
    | "json" => .json
    | "latex" => .latex
    | _ => .text

/-- The name of a step in a trace. -/
def traceTitle (color : Bool) (s : Step) : String :=
  let name := usage.pad 18 s.title
  if color then "\x1b[36;1m" ++ name ++ "\x1b[0m" else name

/-- The steps, one line each. -/
def traceText (color latex : Bool) (steps : List Step) : String :=
  Text.concat (steps.map fun s =>
    traceTitle color s ++ " " ++ (if latex then s.latex else s.text) ++ "\n")

/-- A derivative with its steps as a JSON value. -/
def solutionJson (d : Solution Float) : Json Float :=
  .obj [("input", .str (Utf8.decode d.input)), ("iterations", .num (Float.ofNat d.iterations)),
    ("latex", .str d.latex), ("result", .str d.text), ("steps", .arr (d.steps.map Tool.stepJson)),
    ("variable", .str d.variableName)]

/-- The options of a differentiation: the settings, changed by flags. -/
def optionsOf (settings : Settings) (a : Arguments) : Options :=
  { maxIterations := (a.integer? "max-iter").getD settings.maxIterations
    restoreDivision := settings.restoreDivision && !a.isOn "no-restore" }

/-- Differentiate an expression. -/
def runDifferentiate (settings : Settings) (a : Arguments) (text : String) :
    Except Error String := do
  let run := differentiate (optionsOf settings a) (Utf8.bytes text) (a.textD "var" "x")
  let d ← run.outcome.mapError Error.failure
  let color := settings.color && !a.isOn "no-color"
  let trace (latex : Bool) : String :=
    if a.isOn "trace" then traceText color latex d.steps else ""
  match formatOf settings a with
  | .json => return (← ((solutionJson d).encode (.indented 0)).mapError Error.output) ++ "\n"
  | .latex => return trace true ++ d.latex ++ "\n"
  | .text => return trace false ++ d.text ++ "\n"

/-- The expression that an argument denotes. -/
def expression (text : String) : Except Error (Expr Float) :=
  (Expr.parse (Utf8.bytes text)).mapError Error.source

/-- Print an expression back. -/
def runParse (a : Arguments) (text : String) : Except Error String := do
  let e ← expression text
  if a.isOn "json" then
    let j ← e.toJson.mapError Error.pass
    return (← (j.encode .compact).mapError Error.output) ++ "\n"
  else return e.print ++ "\n"

/-- Multiply an expression out. -/
def runExpand (text : String) : Except Error String := do
  let e ← expression text
  return (← e.distribute.mapError Error.pass).print ++ "\n"

/-- Print the terms of an expression, one on each line. -/
def runTerms (text : String) : Except Error String := do
  let e ← expression text
  let ts ← e.canonicalTerms.mapError Error.pass
  return Text.concat (ts.map fun t => t.format ++ "\n")

/-- The only positional argument. -/
def single (a : Arguments) : Except Error String :=
  match a.positional with
  | [text] => .ok text
  | others => .error (.argumentCount 1 others.length)

/-- The settings that the flags point to. -/
def settingsOf (tree : FileTree) (a : Arguments) : Except Error Settings := do
  let settings ← (Settings.loadOrFind tree (a.textD "config" "")).mapError Error.settings
  discard (settings.level.mapError Error.log)
  return settings

/-- Run a command whose flags have been read. -/
def runCommand (tree : FileTree) (c : Command) (a : Arguments) : Except Error String :=
  match c.action with
  | .help => .ok usage
  | .tools =>
    match a.positional with
    | [] => do
      discard (settingsOf tree a)
      return Tool.schemaText ++ "\n"
    | name :: _ => .error (.unknownCommand name (programName ++ " " ++ c.name) [])
  | .differentiate => do
    let text ← single a
    let settings ← settingsOf tree a
    runDifferentiate settings a text
  | .parse => do
    let text ← single a
    discard (settingsOf tree a)
    runParse a text
  | .expand => do
    let text ← single a
    discard (settingsOf tree a)
    runExpand text
  | .terms => do
    let text ← single a
    discard (settingsOf tree a)
    runTerms text

/-- The command that is asked for, with its arguments. -/
def readCommand (arguments : List String) : Except Error (Option Command × Arguments) := do
  let (command, rest) ← findCommand arguments
  let flags := (command.map Command.flags).getD [] ++ sharedFlags ++ [helpFlag]
  return (command, ← (parseArguments flags rest).mapError Error.flags)

/-- The files that a command line may look at. -/
def consulted (workingDirectory : String) (arguments : List String) : List String :=
  match readCommand arguments with
  | .ok (_, a) => Settings.consulted workingDirectory (a.textD "config" "")
  | .error _ => []

/-- What a command line prints. -/
def run (tree : FileTree) (arguments : List String) : Except Error String := do
  let (command, a) ← readCommand arguments
  match command with
  | some c => if a.isOn "help" then return usage else runCommand tree c a
  | none => return usage

end Fluxion.CommandLine
