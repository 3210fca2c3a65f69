import SettingsArchive.Numeral
import SettingsArchive.Policy
import SettingsArchive.Storage.FileSystem
import SettingsArchive.Text.Quoted
import SettingsArchive.Toml.Reader

/-!
# Configuration

Where the databases are, how long to wait for the lock, and how a rollback
treats settings that cannot be rolled back is configured.  There are default
values, a TOML file that replaces some of them, and variables of the
environment that replace any of them.
-/

namespace SettingsArchive

/-- The variables of the environment with their values. -/
abbrev Environment := List (String × String)

/-- The configuration of the program.  The waiting time is in milliseconds. -/
structure Configuration where
  dataDirectory : String
  globalDirectory : String
  lockTimeout : Nat
  policy : Policy
  logLevel : String
  logFile : Option String
deriving DecidableEq, Repr

/-- What can be wrong with a configuration. -/
inductive ConfigurationFault where
  | unreadable (path : String) (cause : FileError)
  | malformedFile (path : String)
  | malformedText
  | lockTimeout (text : String) (fault : NumeralFault)
  | policy (name : String)
deriving DecidableEq, Repr

namespace ConfigurationFault

/-- The wording of a fault. -/
def message : ConfigurationFault → String
  | .unreadable path _ => "Failed to read config file: " ++ Text.quoted path
  | .malformedFile path => "Failed to parse config file: " ++ Text.quoted path
  | .malformedText => "Failed to parse config TOML"
  | .lockTimeout text _ =>
    "Invalid ARCHIVER_LOCK_TIMEOUT_MS: " ++ Text.quoted text
  | .policy name => Policy.unknownMessage name

/-- The wording of what is behind a fault. -/
def cause? : ConfigurationFault → Option String
  | .unreadable _ cause => some cause.message
  | .lockTimeout _ fault => some fault.message
  | _ => none

end ConfigurationFault

namespace Environment

/-- The variables that the program looks at. -/
def names : List String :=
  ["HOME", "XDG_DATA_HOME", "XDG_CONFIG_HOME", "ARCHIVER_CONFIG",
    "ARCHIVER_DATA_DIR", "ARCHIVER_GLOBAL_DIR", "ARCHIVER_LOCK_TIMEOUT_MS",
    "ARCHIVER_ROLLBACK_POLICY", "ARCHIVER_LOG_LEVEL", "ARCHIVER_LOG_FILE",
    "RUST_LOG", "TZ"]

/-- The directory that a variable names, if it is a path from the root, or else
a directory within the home directory. -/
def userDirectory (env : Environment) (name withinHome : String) : String :=
  match env.lookup name with
  | some path => if path.startsWith "/" then path else home
  | none => home
where
  /-- The directory within the home directory. -/
  home : String :=
    match env.lookup "HOME" with
    | none | some "" => "."
    | some path => FilePath.join path withinHome

end Environment

namespace Configuration

/-- The name of the program's own directories. -/
def directoryName : String := "config-archiver"

/-- The configuration where nothing is configured. -/
def ofDefaults (env : Environment) : Configuration where
  dataDirectory := FilePath.join
    (Environment.userDirectory env "XDG_DATA_HOME" ".local/share") directoryName
  globalDirectory := "/var/lib/config-archiver"
  lockTimeout := 5000
  policy := .bestEffort
  logLevel := "warn"
  logFile := none

/-- The path of the TOML file. -/
def filePath (env : Environment) : String :=
  match env.lookup "ARCHIVER_CONFIG" with
  | some path => path
  | none =>
    let directory := Environment.userDirectory env "XDG_CONFIG_HOME" ".config"
    FilePath.join (FilePath.join directory directoryName) "config.toml"

/-! ## The file -/

/-- The text of a value. -/
def textOf? : Toml → Option String
  | .string text => some text
  | _ => none

/-- The waiting time of a value. -/
def timeoutOf? : Toml → Option Nat
  | .integer n => if 0 ≤ n then some n.toNat else none
  | _ => none

/-- The policy of a value: its name, or a table with nothing but an empty
member of this name. -/
def policyOf? : Toml → Option Policy
  | .string name => Policy.ofName? name
  | .table _ [(name, .table _ [])] => Policy.ofName? name
  | .table _ [(name, .array [])] => Policy.ofName? name
  | _ => none

/-- The configuration with what one member of the file says.  Other members
than those of a configuration do not matter. -/
def withMember (c : Configuration) (key : String) (value : Toml) :
    Option Configuration := do
  match key with
  | "data_dir" => return { c with dataDirectory := ← textOf? value }
  | "global_dir" => return { c with globalDirectory := ← textOf? value }
  | "lock_timeout_ms" => return { c with lockTimeout := ← timeoutOf? value }
  | "rollback_policy" => return { c with policy := ← policyOf? value }
  | "log_level" => return { c with logLevel := ← textOf? value }
  | "log_file" => return { c with logFile := some (← textOf? value) }
  | _ => return c

/-- The configuration with what the text of a file says. -/
def withText? (c : Configuration) (text : String) : Option Configuration := do
  let members ← Toml.read? text
  members.foldlM (fun c (key, value) => c.withMember key value) c

/-! ## The environment -/

/-- The configuration with what the environment says about waiting. -/
def withTimeout (c : Configuration) (env : Environment) :
    Except ConfigurationFault Configuration :=
  match env.lookup "ARCHIVER_LOCK_TIMEOUT_MS" with
  | none => .ok c
  | some text =>
    match Numeral.readNat 10 Numeral.maxWord text.toList with
    | .ok lockTimeout => .ok { c with lockTimeout }
    | .error fault => .error (.lockTimeout text fault)

/-- The configuration with the policy of the environment. -/
def withPolicy (c : Configuration) (env : Environment) :
    Except ConfigurationFault Configuration :=
  match env.lookup "ARCHIVER_ROLLBACK_POLICY" with
  | none => .ok c
  | some name =>
    match Policy.ofName? name with
    | some policy => .ok { c with policy }
    | none => .error (.policy name)

/-- The log file that the environment leaves.  An empty name means none. -/
def logFileOf (c : Configuration) (env : Environment) : Option String :=
  match env.lookup "ARCHIVER_LOG_FILE" with
  | none => c.logFile
  | some "" => none
  | some path => some path

/-- The configuration with what the environment says. -/
def withEnvironment (c : Configuration) (env : Environment) :
    Except ConfigurationFault Configuration := do
  let c ← c.withTimeout env
  let c ← c.withPolicy env
  return { c with
    dataDirectory := (env.lookup "ARCHIVER_DATA_DIR").getD c.dataDirectory
    globalDirectory :=
      (env.lookup "ARCHIVER_GLOBAL_DIR").getD c.globalDirectory
    logLevel :=
      ((env.lookup "ARCHIVER_LOG_LEVEL").filter (· ≠ "")).getD c.logLevel
    logFile := c.logFileOf env }

/-! ## Loading -/

/-- The configuration of a text and the environment. -/
def ofText (env : Environment) (text : String) :
    Except ConfigurationFault Configuration :=
  match (ofDefaults env).withText? text with
  | some c => c.withEnvironment env
  | none => .error .malformedText

/-- The configuration of a file, which may be missing, and the environment. -/
def load {m : Type → Type} [Monad m] [FileSystem m] (env : Environment)
    (path : String) : m (Except ConfigurationFault Configuration) := do
  if ← FileSystem.isThere path then
    match ← FileSystem.readText path with
    | .error e => return .error (.unreadable path e)
    | .ok text =>
      match (ofDefaults env).withText? text with
      | some c => return c.withEnvironment env
      | none => return .error (.malformedFile path)
  else return (ofDefaults env).withEnvironment env

/-! ## Places -/

/-- The path of the global database, or of that of the user. -/
def databasePath (c : Configuration) (isGlobal : Bool) : String :=
  FilePath.join (if isGlobal then c.globalDirectory else c.dataDirectory)
    "archive.xml"

/-- The path of the lock file of a database. -/
def lockPath (c : Configuration) (isGlobal : Bool) : String :=
  FilePath.lockOf (c.databasePath isGlobal)

end Configuration

end SettingsArchive
