/-!
# Errors of storage

A file operation fails with a kind and a message of the system.  What the
archive reports says which step failed and on which file, and for some
errors what to do about it.

`StorageError.ofWriting` and `StorageError.ofReading` sort a failed operation.
-/

namespace SettingsArchive

/-- The kinds of failed file operations that are told apart. -/
inductive FileErrorKind where
  | permissionDenied
  | notFound
  | other
deriving DecidableEq, Repr

/-- A failed file operation. -/
structure FileError where
  kind : FileErrorKind
  message : String
deriving DecidableEq, Repr

/-- Why the database cannot be opened or saved.  Waiting times are in
milliseconds. -/
inductive StorageError where
  | createDirectory (path : String) (cause : FileError)
  | permissionDenied (path : String) (cause : FileError)
  | diskFull (path : String) (cause : FileError)
  | read (path : String) (cause : FileError)
  | write (path : String) (cause : FileError)
  | invalidFormat (path details : String)
  | notFound (path : String)
  | rename (source target : String) (cause : FileError)
  | lockTimeout (path : String) (timeout : Nat)
  | other (cause : FileError)
deriving DecidableEq, Repr

/-- The text of a waiting time: in milliseconds, or in seconds with as many
decimal places as it needs. -/
def durationText (milliseconds : Nat) : String :=
  if milliseconds = 0 then "0ns"
  else if milliseconds < 1000 then s!"{milliseconds}ms"
  else
    let fraction := milliseconds % 1000
    let seconds := toString (milliseconds / 1000)
    if fraction = 0 then seconds ++ "s"
    else
      let digits := Nat.toDigits 10 fraction
      let places := List.replicate (3 - digits.length) '0' ++ digits
      let shown := (places.reverse.dropWhile (· == '0')).reverse
      seconds ++ "." ++ String.ofList shown ++ "s"

namespace StorageError

/-- The wording of an error. -/
def message : StorageError → String
  | .createDirectory path cause =>
    s!"Failed to create directory '{path}': " ++ cause.message
  | .permissionDenied path _ =>
    s!"Permission denied: cannot access '{path}'. Check file permissions."
  | .diskFull path _ =>
    s!"Disk full or quota exceeded while writing to '{path}'. "
      ++ "Free up disk space and try again."
  | .read path cause => s!"Failed to read '{path}': " ++ cause.message
  | .write path cause => s!"Failed to write '{path}': " ++ cause.message
  | .invalidFormat path details =>
    s!"Invalid archive format in '{path}': {details}"
  | .notFound path => s!"File not found: '{path}'"
  | .rename source target cause =>
    s!"Atomic write failed: could not rename '{source}' to '{target}': "
      ++ cause.message
  | .lockTimeout path timeout =>
    "Timed out after " ++ durationText timeout
      ++ s!" waiting for the lock on '{path}'. "
      ++ "Another archiver process may be running."
  | .other cause => "I/O error: " ++ cause.message

/-- The failed operation behind an error. -/
def cause? : StorageError → Option FileError
  | .createDirectory _ cause => some cause
  | .permissionDenied _ cause => some cause
  | .diskFull _ cause => some cause
  | .read _ cause => some cause
  | .write _ cause => some cause
  | .rename _ _ cause => some cause
  | .other cause => some cause
  | .invalidFormat _ _ => none
  | .notFound _ => none
  | .lockTimeout _ _ => none

/-- Whether a second attempt may succeed. -/
def isRecoverable : StorageError → Bool
  | .diskFull _ _ => true
  | .permissionDenied _ _ => true
  | .lockTimeout _ _ => true
  | _ => false

/-- What to do about an error. -/
def hint? : StorageError → Option String
  | .diskFull _ _ => some "Free up disk space and try again."
  | .permissionDenied _ _ =>
    some ("Check file and directory permissions. "
      ++ "The global archive usually needs elevated permissions.")
  | .lockTimeout _ _ =>
    some ("Wait for the other archiver process to finish, "
      ++ "or raise lock_timeout_ms.")
  | .invalidFormat _ _ =>
    some ("The archive file is damaged. "
      ++ "Restore it from a backup or move it aside to start fresh.")
  | .createDirectory _ _ =>
    some ("Check that the parent directory exists "
      ++ "and you have write permissions.")
  | _ => none

end StorageError

/-! ## Sorting failed operations -/

/-- The small letter of an ASCII letter and of the Kelvin sign.  No other
character has a small form within ASCII that the wordings below could hold. -/
def smallLetter (c : Char) : Char :=
  if c = '\u212A' then 'k' else c.toLower

/-- Whether some characters stand side by side within others. -/
def standsIn (part : List Char) : List Char → Bool
  | [] => part.isEmpty
  | c :: cs => part.isPrefixOf (c :: cs) || standsIn part cs

/-- Whether a message tells that the disk is full. -/
def FileError.tellsDiskFull (e : FileError) : Bool :=
  let message := e.message.toList.map smallLetter
  ["no space left", "disk full", "quota exceeded", "not enough space"].any
    fun wording => standsIn wording.toList message

namespace StorageError

/-- The error of an operation on a file that failed with `unsorted` unless it
is of a kind of its own. -/
def sort (unsorted : String → FileError → StorageError) (e : FileError)
    (path : String) : StorageError :=
  match e.kind with
  | .permissionDenied => .permissionDenied path e
  | .notFound => .notFound path
  | .other => if e.tellsDiskFull then .diskFull path e else unsorted path e

/-- The error of a failed attempt to write a file. -/
def ofWriting : FileError → String → StorageError :=
  sort .write

/-- The error of a failed attempt to read a file. -/
def ofReading : FileError → String → StorageError :=
  sort .read

end StorageError

end SettingsArchive
