import SettingsArchive.Archive.Rollback
import SettingsArchive.CommandLine
import SettingsArchive.DateCriterion
import SettingsArchive.Zone.Reader

/-!
# What an invocation is asked for

A command line asks for one operation with what the operation needs.
`Options.ofCommandLine` checks that it is there, before anything is read or
written.
-/

namespace SettingsArchive

/-- What an invocation does. -/
inductive Action where
  | store (backend : String)
  | rollback (request : RollbackRequest) (preview : Bool)
  | changeLocation (location : String)
  | renameLocation (newName : String)
  | addLocation (location : String) (parent : Option String)
  | removeLocation
  | addBackend (backend : String) (master : Bool)
  | removeBackend (backend : String) (master : Bool)
  | listLocations
  | history (path : String)
deriving DecidableEq

/-- The forms of output.  The quiet form has only what a script needs. -/
inductive OutputForm where
  | human
  | json
  | quiet
deriving DecidableEq, Repr

/-- What an invocation is asked for. -/
structure Options where
  action : Action
  location : Option String
  isGlobal : Bool
  configuration : Option String
  form : OutputForm
  isVerbose : Bool
deriving DecidableEq

/-- What a command line can lack. -/
inductive OptionsFault where
  | strayModifiers (names : List String)
  | storeBackend
  | rollbackScope
  | locationToChange
  | newName
  | locationToAdd
  | backend
  | date (fault : DateFault)
  | criteria (error : ArchiveError)

namespace OptionsFault

/-- The wording of a fault. -/
def message : OptionsFault → String
  | .strayModifiers names => ", ".intercalate names ++ " only apply to --rollback"
  | .storeBackend => "--store needs --backend"
  | .rollbackScope => "--rollback needs --backend or --all"
  | .locationToChange => "--change-location needs --location"
  | .newName => "--rename-location needs --new-name"
  | .locationToAdd => "--add-location needs --location"
  | .backend => "--add-backend and --remove-backend need --backend"
  | .date fault => fault.message
  | .criteria error => error.message

/-- The wording of what is behind a fault. -/
def cause? : OptionsFault → Option String
  | .date fault => fault.cause?.map NumeralFault.message
  | _ => none

end OptionsFault

namespace CommandLine

/-- The names of what is given and says something about a rollback. -/
def rollbackModifiers (c : CommandLine) : List String :=
  [("--date", (c.value? .date).isSome), ("--all", c.has .all),
    ("--revision-id", (c.value? .revision).isSome), ("--last", c.has .last),
    ("--steps", (c.value? .steps).isSome), ("--show", c.has .preview),
    ("--recursive", c.has .recursive)].filterMap fun (name, isGiven) =>
      if isGiven then some name else none

/-- The value of a parameter that must be given. -/
def required (c : CommandLine) (p : Parameter) (fault : OptionsFault) :
    Except OptionsFault String :=
  match c.value? p with
  | some text => .ok text
  | none => .error fault

/-- The form of the output.  The quiet form comes before the JSON form. -/
def form (c : CommandLine) : OutputForm :=
  if c.has .quiet then .quiet
  else if c.has .json then .json
  else .human

/-- The date that a rollback goes back to, if one is given. -/
def date (c : CommandLine) (zone : Zone) :
    Except OptionsFault (Option Instant) :=
  match c.value? .date with
  | none => .ok none
  | some text =>
    match Instant.ofCriterion zone text with
    | .ok time => .ok (some time)
    | .error fault => .error (.date fault)

/-- The rollback that is asked for. -/
def rollbackRequest (c : CommandLine) (zone : Zone) :
    Except OptionsFault RollbackRequest := do
  let date ← c.date zone
  let target ← (Target.ofCriteria date (c.has .last) (c.number? .steps)
    (c.number? .revision)).mapError .criteria
  if c.has .all then return ⟨target, none, c.has .recursive⟩
  let backend ← c.required .backend .rollbackScope
  return ⟨target, some backend, c.has .recursive⟩

/-- The operation that is asked for. -/
def action (c : CommandLine) (zone : Zone) : Except OptionsFault Action := do
  if c.has .store then return .store (← c.required .backend .storeBackend)
  else if c.has .rollback then
    return .rollback (← c.rollbackRequest zone) (c.has .preview)
  else if c.has .changeLocation then
    return .changeLocation (← c.required .location .locationToChange)
  else if c.has .renameLocation then
    return .renameLocation (← c.required .newName .newName)
  else if c.has .addLocation then
    let location ← c.required .location .locationToAdd
    return .addLocation location (c.value? .parent)
  else if c.has .removeLocation then return .removeLocation
  else if c.has .addBackend then
    return .addBackend (← c.required .backend .backend) (c.has .master)
  else if c.has .removeBackend then
    return .removeBackend (← c.required .backend .backend) (c.has .master)
  else
    match c.value? .history with
    | some path => return .history path
    | none => return .listLocations

end CommandLine

namespace Options

/-- What a command line asks for.  Dates are read by the clocks of a zone. -/
def ofCommandLine (zone : Zone) (c : CommandLine) :
    Except OptionsFault Options := do
  let stray := c.rollbackModifiers
  if !c.has .rollback && !stray.isEmpty then throw (.strayModifiers stray)
  let action ← c.action zone
  return ⟨action, c.value? .location, c.has .isGlobal,
    c.value? .configuration, c.form, c.has .verbose⟩

end Options

end SettingsArchive
