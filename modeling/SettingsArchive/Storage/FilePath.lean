import SettingsArchive.Path

/-!
# Paths of files

The database is a file, and its lock and its temporary file stand beside it.
A file path is a text whose parts are divided by slashes.  Parts that are
empty, and dots other than one at the beginning, do not count.
-/

namespace SettingsArchive.FilePath

/-- The parts between slashes. -/
def parts (path : String) : List String :=
  (Path.splitSlash path.toList).map String.ofList

/-- Whether a part at the end of a path counts.  `before` is what stands in
front of it. -/
def counts (before : List String) (part : String) : Bool :=
  part ≠ "" && (part ≠ "." || before.isEmpty)

/-- Parts, the last one first, without those at the end that do not count. -/
def dropIdle : List String → List String
  | [] => []
  | part :: before =>
    if counts before part then part :: before else dropIdle before

/-- The directory around a file, if there is a part to take off.  It is empty
for a file in the working directory. -/
def parent? (path : String) : Option String :=
  match dropIdle (parts path).reverse with
  | [] => none
  | _ :: before =>
    let left := (dropIdle before).reverse
    if left.isEmpty && path.startsWith "/" then some "/"
    else some ("/".intercalate left)

/-- The path itself and the directories around it that have a name, the
innermost first, at most `limit` of them. -/
def ancestry : Nat → String → List String
  | 0, _ => []
  | limit + 1, path =>
    if path = "" then []
    else
      match parent? path with
      | none => [path]
      | some directory => path :: ancestry limit directory

/-- A path below a directory.  A path from the root stands for itself. -/
def join (directory path : String) : String :=
  if path.startsWith "/" || directory = "" then path
  else if directory.endsWith "/" then directory ++ path
  else directory ++ "/" ++ path

/-- The lock file of a database. -/
def lockOf (path : String) : String :=
  path ++ ".lock"

/-- The file that a database is written to before it gets its name. -/
def temporaryOf (path : String) : String :=
  path ++ ".tmp"

end SettingsArchive.FilePath
