import Fluxion.Path

/-!
# File trees

The files that a program sees, as a value: the contents of files and the names of empty directories
under absolute paths.
-/

namespace Fluxion

/-- What a path leads to. -/
inductive Entry where
  /-- A file with its content. -/
  | file (content : String)
  /-- A directory. -/
  | directory
  /-- Nothing. -/
  | missing
  /-- Nothing, because something on the way is not a directory. -/
  | blocked
deriving DecidableEq, Repr

/-- Files and directories. -/
structure FileTree where
  /-- The contents of the files under their absolute paths. -/
  files : List (String × String) := []
  /-- The absolute paths of directories that need not hold any files. -/
  directories : List String := []
  /-- The absolute path that relative paths start from. -/
  workingDirectory : String := "/"

namespace FileTree

/-- The absolute path is a directory: it is listed or something lies inside of it. -/
def isDirectory (t : FileTree) (path : String) : Bool :=
  path == "/" || t.directories.contains path || t.workingDirectory == path ||
    (t.files.map (·.1) ++ t.directories ++ [t.workingDirectory]).any fun p =>
      p.startsWith (path ++ "/")

/-- What an absolute path in its shortest form leads to. -/
def entry (t : FileTree) (path : String) : Entry :=
  match t.files.find? fun f => f.1 == path with
  | some f => .file f.2
  | none => if t.isDirectory path then .directory else .missing

/-- Follow the parts of a path from a directory on. An empty part after a name asks for a directory. -/
def walk (t : FileTree) (dir : String) : List String → Entry
  | [] => t.entry dir
  | name :: rest =>
    match t.entry dir with
    | .directory =>
      if name == "" || name == "." then walk t dir rest
      else walk t (Path.join dir name) rest
    | .file _ => .blocked
    | e => e

/-- What a path leads to. -/
def lookup (t : FileTree) (path : String) : Entry :=
  if path.isEmpty then .missing
  else t.walk (if Path.isRooted path then "/" else t.workingDirectory) (path.splitOn "/")

/-- There is something at the path. -/
def contains (t : FileTree) (path : String) : Bool :=
  match t.lookup path with
  | .file _ => true
  | .directory => true
  | _ => false

end FileTree

end Fluxion
