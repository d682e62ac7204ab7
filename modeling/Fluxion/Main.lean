import Fluxion.CommandLine

/-!
# The program

Takes a snapshot of the files that the command line may look at, runs the command line on it, and prints
what comes out. The exit code tells whether the command succeeded.
-/

namespace Fluxion.Program

/-- What a path leads to. Something that is there and cannot be read counts as a directory. -/
def look (path : String) : IO Entry := do
  try
    return .file (← IO.FS.readFile path)
  catch e =>
    match e with
    | .noFileOrDirectory .. => return .missing
    | _ => return .directory

/-- A tree with those of the paths that lead to something. -/
def snapshot (workingDirectory : String) (paths : List String) : IO FileTree := do
  let mut tree : FileTree := { workingDirectory := workingDirectory }
  for path in paths do
    let absolute := if Path.isRooted path then Path.clean path else Path.join workingDirectory path
    match ← look path with
    | .file content => tree := { tree with files := (absolute, content) :: tree.files }
    | .directory => tree := { tree with directories := absolute :: tree.directories }
    | _ => pure ()
  return tree

/-- Run a command line and print its outcome. -/
def run (arguments : List String) : IO UInt32 := do
  let here := (← IO.currentDir).toString
  let tree ← snapshot here (CommandLine.consulted here arguments)
  match CommandLine.run tree arguments with
  | .ok output =>
    IO.print output
    return 0
  | .error e =>
    IO.eprintln ("error: " ++ e.message)
    return 1

end Fluxion.Program

/-- The entry point of the program. -/
def main (arguments : List String) : IO UInt32 := Fluxion.Program.run arguments
