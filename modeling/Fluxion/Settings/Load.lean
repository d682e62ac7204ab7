import Fluxion.FileTree
import Fluxion.Settings
import Fluxion.Toml.Read

/-!
# Settings from a file

Settings are read from a TOML file over the defaults. The names of sections and fields may be written in
any case; a key that names no setting is refused. Without an explicit file, one is searched for in the
working directory and the directories above it.
-/

namespace Fluxion

namespace Settings

/-- The name of the file that is searched for. -/
def fileName : String := "minimaple.toml"

/-- Why settings cannot be loaded. -/
inductive LoadError where
  /-- There is no such file. -/
  | missing (path : String)
  /-- It is not a well-formed file of settings: wrong form, wrong type or something defined twice. -/
  | malformed (path : String)
  /-- A key names no setting. -/
  | unknownKey (path : String) (key : Toml.Key)
  /-- The settings break a rule. -/
  | invalid (path : String) (cause : SettingsError)
deriving DecidableEq, Repr

/-- The text of the error. -/
def LoadError.message : LoadError → String
  | missing path =>
    "loading " ++ Text.unmark path ++ ": open " ++ path ++ ": no such file or directory"
  | malformed path => "loading " ++ Text.unmark path ++ ": invalid settings"
  | unknownKey path key =>
    Text.unmark path ++ ": unknown key " ++ Text.unmark (Toml.renderKey key)
  | invalid path cause => Text.unmark path ++ ": " ++ cause.message

/-! ### Fields -/

/-- A value that is a text. -/
def text? : Toml.Node → Option String
  | .str s => some s
  | _ => none

/-- A value that is an integer. -/
def int? : Toml.Node → Option Int
  | .int n => some n
  | _ => none

/-- A value that is a truth value. -/
def bool? : Toml.Node → Option Bool
  | .bool b => some b
  | _ => none

/-- A duration is a text, or the integer zero. -/
def duration? (node : Toml.Node) : Option Duration :=
  let parsed (s : String) : Option Duration :=
    match Duration.read s with
    | .ok d => some d
    | .error _ => none
  match node with
  | .str s => parsed s
  | .int n => parsed (toString n)
  | _ => none

/-- How a field of a section changes the settings; `none` inside for a value of the wrong type. -/
def field? (sectionName name : String) :
    Option (Settings → Toml.Node → Option Settings) :=
  match Text.foldCase sectionName, Text.foldCase name with
  | "pipeline", "max_iterations" =>
    some fun s v => do return { s with maxIterations := ← int? v }
  | "pipeline", "restore_division" =>
    some fun s v => do return { s with restoreDivision := ← bool? v }
  | "log", "level" => some fun s v => do return { s with logLevel := ← text? v }
  | "log", "format" => some fun s v => do return { s with logFormat := ← text? v }
  | "server", "addr" => some fun s v => do return { s with address := ← text? v }
  | "server", "read_timeout" => some fun s v => do return { s with readTimeout := ← duration? v }
  | "server", "write_timeout" => some fun s v => do return { s with writeTimeout := ← duration? v }
  | "server", "max_body_bytes" => some fun s v => do return { s with maxBodyBytes := ← int? v }
  | "output", "format" => some fun s v => do return { s with outputFormat := ← text? v }
  | "output", "color" => some fun s v => do return { s with color := ← bool? v }
  | _, _ => none

/-- The sections. -/
def isSection (name : String) : Bool :=
  ["pipeline", "log", "server", "output"].contains (Text.foldCase name)

/-- Take in an entry of a section; entries that name no field are left aside. -/
def withField (sectionName : String) (s : Settings) (e : String × Toml.Node) : Option Settings :=
  match field? sectionName e.1 with
  | some change => change s e.2
  | none => some s

/-- Take in an entry of the outermost table. A section has to be a table. -/
def withSection (s : Settings) (e : String × Toml.Node) : Option Settings :=
  if isSection e.1 then
    match e.2 with
    | .table entries => entries.foldlM (withField e.1) s
    | _ => none
  else some s

/-- The defaults changed by a document; `none` if a value has the wrong type. -/
def ofDocument (d : Toml.Document) : Option Settings := d.root.foldlM withSection {}

/-- The keys of an entry of the outermost table that name a section and its fields. -/
def sectionKeys (e : String × Toml.Node) : List Toml.Key :=
  match isSection e.1, e.2 with
  | true, .table entries =>
    [e.1] :: (entries.filter fun f => (field? e.1 f.1).isSome).map fun f => [e.1, f.1]
  | _, _ => []

/-- The first key of a document that has no part in the settings. Besides keys that name no setting this
is also a field that was dropped when its section, once an array, was defined anew. -/
def unknownKey? (d : Toml.Document) : Option Toml.Key :=
  let known := d.root.flatMap sectionKeys
  d.keys.find? fun k => !known.contains k

/-! ### Files -/

/-- Load the settings in a text; `path` is named in errors. -/
def ofText (path content : String) : Except LoadError Settings := do
  let some document := Toml.read content | throw (.malformed path)
  let some settings := ofDocument document | throw (.malformed path)
  match unknownKey? document with
  | some key => throw (.unknownKey path key)
  | none =>
    match settings.validate with
    | .ok () => return settings
    | .error cause => throw (.invalid path cause)

/-- Load the settings in a file. -/
def load (tree : FileTree) (path : String) : Except LoadError Settings :=
  match tree.lookup path with
  | .file content => ofText path content
  | .missing => .error (.missing path)
  | .directory => .error (.malformed path)
  | .blocked => .error (.malformed path)

/-- A directory and those above it. The parent of the outermost one is that directory itself; every
other parent is shorter or the current directory, so that the length bounds their number. -/
def ancestors : (fuel : Nat) → (dir : String) → List String
  | 0, dir => [dir]
  | fuel + 1, dir =>
    if Path.parent dir == dir then [dir] else dir :: ancestors fuel (Path.parent dir)

/-- Where a settings file is searched for, in this order. -/
def candidates (start : String) : List String :=
  (ancestors (start.length + 2) start).map fun dir => Path.join dir fileName

/-- The settings file in a directory or the closest one above it. -/
def find? (tree : FileTree) (start : String) : Option String :=
  (candidates start).find? tree.contains

/-- Load the settings file that is found, or the defaults if there is none. -/
def findAndLoad (tree : FileTree) (start : String) :
    Except LoadError (Settings × Option String) :=
  match find? tree start with
  | none => .ok ({}, none)
  | some path => (load tree path).map fun s => (s, some path)

/-- Load the given settings file; with an empty path, the one that is found from the working directory
on. -/
def loadOrFind (tree : FileTree) (path : String) : Except LoadError Settings :=
  if path.isEmpty then (findAndLoad tree tree.workingDirectory).map (·.1) else load tree path

/-- The files that `loadOrFind` may look at. -/
def consulted (workingDirectory path : String) : List String :=
  if path.isEmpty then candidates workingDirectory else [path]

end Settings

end Fluxion
