import SettingsArchive.Archive
import SettingsArchive.Storage.FileSystem

/-!
# Sessions

A session holds the archive of a database file together with the lock on it,
from opening to closing.  Only `flush` and `close` write the file.  A session
that is dropped loses what it did not save.
-/

namespace SettingsArchive

/-- An archive that was read from a file, and the lock on the file. -/
structure Session where
  archive : Archive
  path : String
  lock : LockNumber

namespace Session

open FileSystem

variable {m : Type → Type} [Monad m] [FileSystem m]

/-- The archive in the text of a database file.  A missing file gives a new
archive, which is to be saved.  Whatever is wrong with the text is trouble
with the format of the file, but for a counter that has no further number. -/
def ofFile (path : String) : Option String → Except ArchiveError Archive
  | none => .ok Archive.fresh.changed
  | some text =>
    match Archive.ofText text with
    | .ok a => .ok a
    | .error .counterExhausted => .error .counterExhausted
    | .error e => .error (.storage (.invalidFormat path e.message))

/-- Takes the lock and reads the database.  If that fails, the lock is given
back. -/
def openAt (path lockPath : String) (timeout : Nat) :
    m (Except ArchiveError Session) := do
  match ← acquire lockPath timeout with
  | .error e => return .error (.storage e)
  | .ok number =>
    let text ← readDatabase path
    match text.mapError ArchiveError.storage >>= ofFile path with
    | .ok archive => return .ok ⟨archive, path, number⟩
    | .error e =>
      unlock number
      return .error e

/-- Opens the database at a path. -/
def openFile (path : String) (timeout : Nat) :
    m (Except ArchiveError Session) :=
  openAt path (FilePath.lockOf path) timeout

/-- Saves the archive.  Directories without entries are dropped first, and
they stay dropped if the file cannot be written. -/
def flush (s : Session) : m (Except StorageError Unit × Session) := do
  let pruned := s.archive.pruned
  match ← atomicWrite s.path pruned.text.toUTF8 with
  | .ok () => return (.ok (), { s with archive := s.archive.saved })
  | .error e => return (.error e, { s with archive := pruned })

/-- Gives the lock back without saving. -/
def drop (s : Session) : m Unit :=
  unlock s.lock

/-- Saves what is not saved and gives the lock back. -/
def close (s : Session) : m (Except StorageError Unit) := do
  let result ←
    if s.archive.dirty then Prod.fst <$> s.flush else pure (.ok ())
  s.drop
  return result

end Session

end SettingsArchive
