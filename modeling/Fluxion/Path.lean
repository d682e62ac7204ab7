/-!
# Paths

Slash separated paths as text: cleaning, joining and going to the parent directory.
-/

namespace Fluxion.Path

/-- The path starts at the root. -/
def isRooted (path : String) : Bool := path.startsWith "/"

/-- The names of a path with the empty ones left out. -/
def names (path : String) : List String :=
  (path.splitOn "/").filter fun n => n != "" && n != "."

/-- Resolve parent directories; `kept` holds the names so far in reverse. Above the root there is
nothing, above a relative path there may be more. -/
def resolve (rooted : Bool) : (kept rest : List String) → List String
  | kept, [] => kept.reverse
  | [], ".." :: rest => if rooted then resolve rooted [] rest else resolve rooted [".."] rest
  | ".." :: kept, ".." :: rest => resolve rooted (".." :: ".." :: kept) rest
  | _ :: kept, ".." :: rest => resolve rooted kept rest
  | kept, n :: rest => resolve rooted (n :: kept) rest

/-- The shortest path with the same meaning. -/
def clean (path : String) : String :=
  let body := String.intercalate "/" (resolve (isRooted path) [] (names path))
  if isRooted path then "/" ++ body else if body.isEmpty then "." else body

/-- A name inside a directory. -/
def join (dir name : String) : String :=
  if dir.isEmpty then clean name else clean (dir ++ "/" ++ name)

/-- The directory of a path: what stands before the last slash, cleaned. -/
def parent (path : String) : String :=
  clean (String.ofList (path.toList.reverse.dropWhile (· != '/')).reverse)

end Fluxion.Path
