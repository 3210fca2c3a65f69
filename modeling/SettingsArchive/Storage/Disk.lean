import SettingsArchive.Storage.FileSystem

/-!
# A disk in memory

A disk maps places to directories and files.  A place is the list of names
from the root down, and the root is the working directory.  Every file has a
number of its own, which it keeps when it is renamed or emptied, and a lock
is held on that number.

A path is followed name by name.  The first step that cannot be made decides
the error, and the errors have the numbers and wordings of the system calls
of Linux.
-/

namespace SettingsArchive

/-- The errors of system calls. -/
inductive SystemError where
  | noEntry
  | busy
  | alreadyThere
  | notDirectory
  | isDirectory
  | nameTooLong
  | tooManyLinks
  | zeroByte
  | invalidText
deriving DecidableEq, Repr

namespace SystemError

/-- The wording of an error. -/
def message : SystemError → String
  | .noEntry => "No such file or directory (os error 2)"
  | .busy => "Device or resource busy (os error 16)"
  | .alreadyThere => "File exists (os error 17)"
  | .notDirectory => "Not a directory (os error 20)"
  | .isDirectory => "Is a directory (os error 21)"
  | .nameTooLong => "File name too long (os error 36)"
  | .tooManyLinks => "Too many levels of symbolic links (os error 40)"
  | .zeroByte => "file name contained an unexpected NUL byte"
  | .invalidText => "stream did not contain valid UTF-8"

/-- The failed operation. -/
def toFileError (e : SystemError) : FileError :=
  ⟨if e = .noEntry then .notFound else .other, e.message⟩

end SystemError

/-- The names from the root down. -/
abbrev Place := List String

/-- What can be at a place. -/
inductive Node where
  | directory
  | file (number : Nat) (data : ByteArray)

/-- A disk.  Later nodes hide earlier ones of the same place. -/
structure Disk where
  nodes : List (Place × Node) := []
  locked : List Nat := []
  nextNumber : Nat := 0

namespace Disk

instance : Inhabited Disk := ⟨{}⟩

/-! ## Nodes -/

/-- What is at a place. -/
def node? (d : Disk) (place : Place) : Option Node :=
  if place = [] then some .directory else d.nodes.lookup place

/-- The disk with something at a place. -/
def put (d : Disk) (place : Place) (node : Node) : Disk :=
  { d with nodes := (place, node) :: d.nodes.filter (·.1 ≠ place) }

/-- The disk with nothing at a place. -/
def clear (d : Disk) (place : Place) : Disk :=
  { d with nodes := d.nodes.filter (·.1 ≠ place) }

/-! ## Following a path -/

/-- The longest name of a file, in bytes. -/
def maxName : Nat := 255

/-- The longest path, in bytes. -/
def maxPath : Nat := 4095

/-- The directory that a name leads to from a directory. -/
def enter (d : Disk) (place : Place) (name : String) :
    Except SystemError Place :=
  if name = "." then .ok place
  else if name = ".." then .ok place.dropLast
  else if maxName < name.utf8ByteSize then .error .nameTooLong
  else
    match d.node? (place ++ [name]) with
    | some .directory => .ok (place ++ [name])
    | some (.file _ _) => .error .notDirectory
    | none => .error .noEntry

/-- Where a path ends: in a directory that it reaches by dots or by nothing
but slashes, or at a name in a directory, behind which a slash may stand. -/
inductive End where
  | at (place : Place)
  | named (place : Place) (name : String) (slash : Bool)
deriving DecidableEq

/-- Follows a path up to its last name. -/
def follow (d : Disk) (path : String) : Except SystemError End :=
  if path.toList.contains '\x00' then .error .zeroByte
  else if path = "" then .error .noEntry
  else if maxPath < path.utf8ByteSize then .error .nameTooLong
  else
    let names := (FilePath.parts path).filter (· ≠ "")
    match names.getLast? with
    | none => .ok (.at [])
    | some last => do
      let place ← names.dropLast.foldlM d.enter []
      if last = "." ∨ last = ".." then .at <$> d.enter place last
      else return .named place last (path.endsWith "/")

/-- What has the name in a directory. -/
def look (d : Disk) (place : Place) (name : String) :
    Except SystemError (Option Node) :=
  if maxName < name.utf8ByteSize then .error .nameTooLong
  else .ok (d.node? (place ++ [name]))

/-- What a path leads to. -/
def find (d : Disk) (path : String) : Except SystemError Node := do
  match ← d.follow path with
  | .at _ => return .directory
  | .named place name slash =>
    match ← d.look place name, slash with
    | none, _ => throw .noEntry
    | some (.file _ _), true => throw .notDirectory
    | some node, _ => return node

/-! ## Operations -/

/-- Makes one directory. -/
def makeDirectory (path : String) (d : Disk) : Except SystemError Disk := do
  match ← d.follow path with
  | .at _ => throw .alreadyThere
  | .named place name _ =>
    match ← d.look place name with
    | some _ => throw .alreadyThere
    | none => return d.put (place ++ [name]) .directory

/-- The text of a file. -/
def readText (path : String) (d : Disk) : Except SystemError String := do
  match ← d.find path with
  | .directory => throw .isDirectory
  | .file _ data =>
    match String.fromUTF8? data with
    | some text => return text
    | none => throw .invalidText

/-- Opens a file for writing, which is made if it is missing.  A slash behind
the name is refused before the name is looked up.  The answer is the place of
the file, its number and its content. -/
def openFile (path : String) (d : Disk) :
    Except SystemError (Place × Nat × ByteArray × Disk) := do
  match ← d.follow path with
  | .at _ => throw .isDirectory
  | .named place name slash =>
    if slash then throw .isDirectory
    let here := place ++ [name]
    match ← d.look place name with
    | some .directory => throw .isDirectory
    | some (.file number data) => return (here, number, data, d)
    | none =>
      let number := d.nextNumber
      let made := { d with nextNumber := number + 1 }
      return (here, number, .empty, made.put here (.file number .empty))

/-- Gives a file, which is made if it is missing, its content. -/
def fill (path : String) (data : ByteArray) (d : Disk) :
    Except SystemError Disk := do
  let (place, number, _, d) ← openFile path d
  return d.put place (.file number data)

/-- Opens a file for appending, which is made if it is missing.  The answer is
its number. -/
def openLog (path : String) (d : Disk) : Except SystemError (Nat × Disk) := do
  let (_, number, _, d) ← openFile path d
  return (number, d)

/-- Gives a file another name. -/
def rename (source target : String) (d : Disk) : Except SystemError Disk := do
  match ← d.follow source, ← d.follow target with
  | .named place name _, .named newPlace newName slash =>
    let here := place ++ [name]
    let there := newPlace ++ [newName]
    match ← d.look place name with
    | none => throw .noEntry
    | some .directory => throw .isDirectory
    | some (.file number data) =>
      match ← d.look newPlace newName, slash with
      | _, true => throw .notDirectory
      | some .directory, _ => throw .isDirectory
      | _, _ => return (d.clear here).put there (.file number data)
  | _, _ => throw .busy

/-- Removes a file. -/
def remove (path : String) (d : Disk) : Except SystemError Disk := do
  match ← d.follow path with
  | .at _ => throw .isDirectory
  | .named place name _ =>
    match ← d.look place name with
    | none => throw .noEntry
    | some .directory => throw .isDirectory
    | some (.file _ _) => return d.clear (place ++ [name])

/-- Takes the lock on a file, unless it is held. -/
def lock (path : String) (d : Disk) :
    Except SystemError (Option LockNumber × Disk) := do
  let (_, number, _, d) ← openFile path d
  if number ∈ d.locked then return (none, d)
  return (some number, { d with locked := number :: d.locked })

/-- Gives a lock back. -/
def unlock (number : LockNumber) (d : Disk) : Disk :=
  { d with locked := d.locked.filter (· ≠ number) }

/-- The answer of an operation, which changes the disk if it succeeds. -/
def act {δ α : Type} (run : δ → Except SystemError (α × δ)) :
    StateM δ (Except FileError α) := fun d =>
  match run d with
  | .ok (a, d) => (.ok a, d)
  | .error e => (.error e.toFileError, d)

/-- The answer of an operation that gives nothing but a disk. -/
def change {δ : Type} (run : δ → Except SystemError δ) :
    StateM δ (Except FileError Unit) :=
  act fun d => ((), ·) <$> run d

instance : FileSystem (StateM Disk) where
  makeDirectory path := change (makeDirectory path)
  isDirectory path := do
    match (← get).find path with
    | .ok .directory => return true
    | _ => return false
  isThere path := return ((← get).find path).toBool
  readText path := act fun d => (·, d) <$> readText path d
  create path := change (fill path .empty)
  openLog path := change fun d => Prod.snd <$> openLog path d
  write path data := change (fill path data)
  rename source target := change (rename source target)
  remove path := change (remove path)
  lock path _ := act (lock path)
  unlock number := modify (unlock number)

/-- The paths of all files. -/
def files (d : Disk) : List String :=
  let found := d.nodes.filterMap fun (place, node) =>
    match node with
    | .directory => none
    | .file _ _ => some ("/".intercalate place)
  found.mergeSort fun a b => decide (a ≤ b)

end Disk

end SettingsArchive
