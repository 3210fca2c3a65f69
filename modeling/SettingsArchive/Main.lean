import SettingsArchive.Invocation
import Std.Time.DateTime.Timestamp

/-!
# The program

The program is one invocation on the files of the machine it runs on, with its
environment, its standard input and its clock.  What the invocation does is
said in `Invocation.run`.  This module only offers the operations of a file
system and prints the outcome.
-/

namespace SettingsArchive

/-- Actions on the files of the machine, with the locks that are held. -/
abbrev Machine := StateRefT (List (LockNumber × IO.FS.Handle)) IO

namespace Machine

/-! ## Files -/

/-- The failed operation with an error number of the system and its wording. -/
def numbered (code : UInt32) (wording : String) : FileError :=
  let kind :=
    if code = 1 ∨ code = 13 then FileErrorKind.permissionDenied
    else if code = 2 then .notFound
    else .other
  ⟨kind, s!"{wording} (os error {code})"⟩

/-- The failed operation behind an error. -/
def failure : IO.Error → FileError
  | .alreadyExists _ code wording | .invalidArgument _ code wording
  | .permissionDenied _ code wording | .resourceExhausted _ code wording
  | .inappropriateType _ code wording | .noSuchThing _ code wording
  | .noFileOrDirectory _ code wording | .interrupted _ code wording
  | .otherError code wording | .resourceBusy code wording
  | .resourceVanished code wording | .unsupportedOperation code wording
  | .hardwareFault code wording | .unsatisfiedConstraints code wording
  | .illegalOperation code wording | .protocolError code wording
  | .timeExpired code wording => numbered code wording
  | .unexpectedEof => ⟨.other, "unexpected end of file"⟩
  | .userError wording => ⟨.other, wording⟩

/-- The answer of an operation that may fail. -/
def attempt {α : Type} (action : IO α) : Machine (Except FileError α) := do
  try return .ok (← action)
  catch e => return .error (failure e)

/-- Gives a file its content. -/
def fill (path : String) (data : ByteArray) : IO Unit := do
  let file ← IO.FS.Handle.mk path .write
  file.write data
  file.flush

/-- The text of a file. -/
def textOf (path : String) : IO String := do
  match String.fromUTF8? (← IO.FS.readBinFile path) with
  | some text => return text
  | none => throw (.userError "stream did not contain valid UTF-8")

/-- Whether a path leads anywhere. -/
def leads (path : String) : Machine Bool := do
  return (← attempt (IO.FS.realPath path)).toBool

/-! ## Locks -/

/-- The longest pause between two attempts to take a lock, in milliseconds. -/
def longestPause : Nat := 50

/-- Takes the lock on a file, with so many pauses between attempts. -/
def takeLock (file : IO.FS.Handle) (pause : Nat) : Nat → IO Bool
  | 0 => file.tryLock
  | pauses + 1 => do
    if ← file.tryLock then return true
    IO.sleep pause.toUInt32
    takeLock file pause pauses

/-- Opens a file and takes the lock on it, if it becomes free in time.  The
pauses together last for the timeout or a little longer. -/
def lockFile (path : String) (timeout : Nat) : IO (Option IO.FS.Handle) := do
  let pause := min longestPause timeout
  let pauses := (timeout + pause - 1) / pause
  let file ← IO.FS.Handle.mk path .append
  if ← takeLock file pause pauses then return some file
  return none

/-- Keeps a lock and gives it a number. -/
def keep (file : IO.FS.Handle) : Machine LockNumber := do
  let held ← get
  set ((held.length, file) :: held)
  return held.length

/-- Gives a lock back. -/
def release (number : LockNumber) : Machine Unit := do
  match (← get).lookup number with
  | some file => file.unlock
  | none => return ()

instance : FileSystem Machine where
  makeDirectory path := attempt (IO.FS.createDir path)
  isDirectory path := leads (path ++ "/.")
  isThere := leads
  readText path := attempt (textOf path)
  create path := attempt (fill path .empty)
  openLog path := attempt do
    let _ ← IO.FS.Handle.mk path .append
  write path data := attempt (fill path data)
  rename source target := attempt (IO.FS.rename source target)
  remove path := attempt (IO.FS.removeFile path)
  lock path timeout := do
    match ← attempt (lockFile path timeout) with
    | .error e => return .error e
    | .ok none => return .ok none
    | .ok (some file) => return .ok (some (← keep file))
  unlock := release

/-! ## Surroundings -/

/-- What is left of standard input. -/
partial def rest (stream : IO.FS.Stream) (before : ByteArray) :
    IO ByteArray := do
  let more ← stream.read 65536
  if more.isEmpty then return before else rest stream (before ++ more)

/-- What the clock shows. -/
def clock : IO Instant := do
  let nanoseconds := (← Std.Time.Timestamp.now).toNanosecondsSinceUnixEpoch.val
  return {
    second := nanoseconds / 1000000000
    nano := (nanoseconds % 1000000000).toNat
    nano_lt := by omega }

/-- The variables of the environment that are set. -/
def environment : IO Environment :=
  Environment.names.filterMapM fun name => do
    return (← IO.getEnv name).map fun value => (name, value)

/-- What an invocation finds around it. -/
def surroundings : IO (Surroundings Machine) := do
  let environment ← environment
  return {
    environment
    input := do rest (← IO.getStdin) .empty
    now := clock }

end Machine

end SettingsArchive

/-- Runs the invocation that the words of the command line ask for. -/
def main (words : List String) : IO UInt32 := do
  let surroundings ← SettingsArchive.Machine.surroundings
  let (outcome, _) ← (SettingsArchive.Invocation.run surroundings words).run []
  IO.print outcome.stdout
  IO.eprint outcome.stderr
  return outcome.exitCode.toUInt32
