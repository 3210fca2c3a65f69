import SettingsArchive.Invocation.Operation
import SettingsArchive.LogFilter
import SettingsArchive.Storage.Session

/-!
# Invocations

An invocation carries out one operation on one database: it opens the
database, which takes the lock, changes the archive in memory, and saves it if
something changed.  An invocation that fails on the way does not save, so the
database is left as it was.

`Invocation.run` is a whole invocation in any file system.
-/

namespace SettingsArchive

/-- What an invocation leaves on the terminal. -/
structure Outcome where
  exitCode : Nat
  stdout : String := ""
  stderr : String := ""
deriving DecidableEq, Repr

/-- What an invocation finds around it, apart from files. -/
structure Surroundings (m : Type → Type) where
  environment : Environment
  input : m ByteArray
  now : m Instant

namespace Invocation

open FileSystem

variable {m : Type → Type} [Monad m] [FileSystem m]

/-- What is printed for the version. -/
def versionText : String := "config-archiver 0.3.0\n"

/-- What is printed for help, and for a command line that cannot be read. -/
def usageText : String :=
  "Usage: config-archiver <--store|--rollback|--change-location|"
    ++ "--rename-location|--add-location|--remove-location|--add-backend|"
    ++ "--remove-backend|--list-locations|--history <PATH>> [OPTIONS]\n"

/-- The outcome of a command line whose reading ended early. -/
def stopped : CommandLineStop → Outcome
  | .version => ⟨0, versionText, ""⟩
  | .help => ⟨0, usageText, ""⟩
  | .misuse => ⟨2, "", usageText⟩

/-- The outcome of an invocation that failed after it printed something. -/
def failed (stdout stderr : String) (e : InvocationError) : Outcome :=
  ⟨e.exitCode, stdout, stderr ++ e.text⟩

/-- What is logged: a filter of the environment, or else everything down to
one level. -/
def logFilter (env : Environment) (options : Options) (c : Configuration) :
    LogFilter :=
  match env.lookup "RUST_LOG" with
  | some text => .ofText text
  | none => .ofLevel (if options.isVerbose then "debug" else c.logLevel)

/-- Opens the log file, if there is to be one.  If that fails, the answer is a
warning. -/
def openLog : Option String → m String
  | none => return ""
  | some path => do
    match ← FileSystem.openLog path with
    | .ok () => return ""
    | .error e =>
      return Output.line ("Warning: Could not open log file "
        ++ Text.quoted path ++ ": " ++ e.message)

/-- Carries out an operation within an open session and closes it.  Without
success nothing is saved. -/
def within (session : Session) (options : Options) (supplies : Supplies)
    (warning : String) : m Outcome := do
  match options.carryOut supplies session.archive with
  | .error e =>
    session.drop
    return failed "" warning e
  | .ok (output, archive) =>
    match ← { session with archive }.close with
    | .error e => return failed output warning (.saveArchive e)
    | .ok () => return ⟨0, output, warning⟩

/-- Carries out what is asked for on the database of a configuration, behind a
warning. -/
def operate (s : Surroundings m) (options : Options) (c : Configuration)
    (warning : String) : m Outcome := do
  let path := c.databasePath options.isGlobal
  match ← Session.openAt path (c.lockPath options.isGlobal) c.lockTimeout with
  | .error e => return failed "" warning (.openArchive path e)
  | .ok session =>
    let input ← if options.action.readsInput then s.input else pure .empty
    let now ← s.now
    let archive := { session.archive with policy := c.policy }
    within { session with archive } options ⟨input, now⟩ warning

/-- Opens the log file and carries out what is asked for. -/
def perform (s : Surroundings m) (options : Options) (c : Configuration) :
    m Outcome := do
  let complaints := (logFilter s.environment options c).complaints
  let warning ← openLog c.logFile
  operate s options c (Output.lines complaints ++ warning)

/-- A whole invocation with the words of its command line. -/
def run (s : Surroundings m) (words : List String) : m Outcome := do
  match CommandLine.read words with
  | .error stop => return stopped stop
  | .ok c =>
    let zone := Zone.ofSetting (s.environment.lookup "TZ")
    match Options.ofCommandLine zone c with
    | .error fault => return failed "" "" (.options fault)
    | .ok options =>
      let path :=
        options.configuration.getD (Configuration.filePath s.environment)
      match ← Configuration.load s.environment path with
      | .error fault => return failed "" "" (.configuration fault)
      | .ok configuration => perform s options configuration

end Invocation

end SettingsArchive
