import SettingsArchive.Storage.Error
import SettingsArchive.Storage.FilePath

/-!
# File systems

What the archive asks of a file system are a few operations that succeed or
fail.  Everything above them is written for any file system: reading the
database, writing it so that no reader ever sees half of it, and holding its
lock.

`atomicWrite` writes a temporary file beside the target and gives it the
target's name in one step.  If a step fails, the temporary file is removed.
-/

namespace SettingsArchive

/-- The number of a lock that is held. -/
abbrev LockNumber := Nat

/-- The operations of a file system. -/
class FileSystem (m : Type → Type) where
  /-- Makes one directory. -/
  makeDirectory : (path : String) → m (Except FileError Unit)
  /-- Whether there is a directory. -/
  isDirectory : (path : String) → m Bool
  /-- Whether there is a file or a directory. -/
  isThere : (path : String) → m Bool
  /-- The text of a file. -/
  readText : (path : String) → m (Except FileError String)
  /-- Makes an empty file, or empties one that is there. -/
  create : (path : String) → m (Except FileError Unit)
  /-- Opens the log file, which is made if it is missing.  What is logged from
  then on is appended to the file. -/
  openLog : (path : String) → m (Except FileError Unit)
  /-- Writes the bytes of a file that was just made, down to the disk. -/
  write : (path : String) → ByteArray → m (Except FileError Unit)
  /-- Gives a file another name, in place of what has that name. -/
  rename : (source target : String) → m (Except FileError Unit)
  /-- Removes a file. -/
  remove : (path : String) → m (Except FileError Unit)
  /-- Takes the lock on a file, which is made if it is missing.  There is no
  lock if someone else holds it for so many milliseconds. -/
  lock : (path : String) → (timeout : Nat) →
    m (Except FileError (Option LockNumber))
  /-- Gives a lock back. -/
  unlock : LockNumber → m Unit

namespace FileSystem

variable {m : Type → Type} [Monad m] [FileSystem m]

/-! ## Directories -/

/-- Makes a directory that may be there already. -/
def ensureDirectory (path : String) : m (Except FileError Unit) := do
  match ← makeDirectory path with
  | .ok () => return .ok ()
  | .error e =>
    if ← isDirectory path then return .ok () else return .error e

/-- Makes a directory and the directories around it, which are given with it,
the innermost first. -/
def makeAll : List String → m (Except FileError Unit)
  | [] => return .ok ()
  | path :: around => do
    match ← makeDirectory path with
    | .ok () => return .ok ()
    | .error e =>
      if e.kind = .notFound then
        match ← makeAll around with
        | .ok () => ensureDirectory path
        | .error e => return .error e
      else if ← isDirectory path then return .ok ()
      else return .error e

/-- Makes a directory and the directories around it. -/
def makeDirectories (path : String) : m (Except FileError Unit) :=
  makeAll (FilePath.ancestry path.length path)

/-- Makes the directories around a file. -/
def makeRoomFor (path : String) : m (Except StorageError Unit) := do
  match FilePath.parent? path with
  | none => return .ok ()
  | some directory =>
    match ← makeDirectories directory with
    | .ok () => return .ok ()
    | .error e => return .error (.createDirectory directory e)

/-! ## Reading and writing -/

/-- The text of the database, if the file is there. -/
def readDatabase (path : String) : m (Except StorageError (Option String)) := do
  if ← isThere path then
    match ← readText path with
    | .ok text => return .ok (some text)
    | .error e => return .error (.ofReading e path)
  else return .ok none

/-- Removes the temporary file of an attempt that failed. -/
def giveUp (temporary : String) (e : StorageError) :
    m (Except StorageError Unit) := do
  let _ ← remove temporary
  return .error e

/-- Gives a file its new content in one step. -/
def atomicWrite (path : String) (data : ByteArray) :
    m (Except StorageError Unit) := do
  let temporary := FilePath.temporaryOf path
  match ← makeRoomFor path with
  | .error e => return .error e
  | .ok () =>
    match ← create temporary with
    | .error e => return .error (.ofWriting e temporary)
    | .ok () =>
      match ← write temporary data with
      | .error e => giveUp temporary (.ofWriting e temporary)
      | .ok () =>
        match ← rename temporary path with
        | .error e => giveUp temporary (.rename temporary path e)
        | .ok () => return .ok ()

/-! ## Locking -/

/-- Takes the lock on a lock file. -/
def acquire (path : String) (timeout : Nat) :
    m (Except StorageError LockNumber) := do
  match ← makeRoomFor path with
  | .error e => return .error e
  | .ok () =>
    match ← lock path timeout with
    | .error e => return .error (.ofWriting e path)
    | .ok none => return .error (.lockTimeout path timeout)
    | .ok (some number) => return .ok number

end FileSystem

end SettingsArchive
