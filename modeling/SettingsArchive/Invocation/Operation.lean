import SettingsArchive.Invocation.Error

/-!
# Operations of invocations

An operation takes the archive of an open database and answers what is printed
and the archive that is to be saved, or why it failed.  It works in memory
only.  `Options.carryOut` finds the operation and the location that it is
about.
-/

namespace SettingsArchive

/-- What an operation on the archive has: the document on standard input, and
the clock. -/
structure Supplies where
  input : ByteArray
  now : Instant

namespace Operation

/-- The answer of an operation that was attempted. -/
def attempt {α : Type} (what : String) (r : Except ArchiveError α) :
    Except InvocationError α :=
  r.mapError (.refused what)

/-- Stores the document on standard input. -/
def store (a : Archive) (form : OutputForm) (supplies : Supplies)
    (location backend : String) : Except InvocationError (String × Archive) := do
  match String.fromUTF8? supplies.input with
  | none => throw .input
  | some text =>
    let (r, a) :=
      a.storeSnapshot location backend text supplies.now .retire
    let report ← attempt s!"Failed to store document for backend '{backend}'" r
    return (Output.stored report form, a)

/-- Carries a rollback out, or shows what it would leave behind. -/
def rollback (a : Archive) (form : OutputForm) (now : Instant)
    (location : String) (request : RollbackRequest) (preview : Bool) :
    Except InvocationError (String × Archive) := do
  if preview then
    let shown ← attempt s!"Could not compute rollback of '{location}'"
      (a.preview location request)
    return (shown.document, a)
  let (r, a) := a.rollback location request now
  let report ← attempt s!"Rollback of '{location}' failed" r
  return (Output.rolledBack report form, a)

/-- Registers a backend at a location, or archive-wide. -/
def addBackend (a : Archive) (form : OutputForm) (location backend : String)
    (master : Bool) : Except InvocationError (String × Archive) := do
  if master then
    let a ← attempt s!"Cannot add master backend '{backend}'"
      (a.addMaster backend)
    return (Output.success s!"Added master backend '{backend}'" form, a)
  let a ← attempt s!"Cannot add backend '{backend}'"
    (a.addBackend location backend)
  return (Output.success s!"Added backend '{backend}' to '{location}'" form, a)

/-- Removes a backend from a location, or one that is registered
archive-wide. -/
def removeBackend (a : Archive) (form : OutputForm)
    (location backend : String) (master : Bool) :
    Except InvocationError (String × Archive) := do
  if master then
    let a ← attempt s!"Cannot remove master backend '{backend}'"
      (a.removeMaster backend)
    return (Output.success s!"Removed master backend '{backend}'" form, a)
  let a ← attempt s!"Cannot remove backend '{backend}'"
    (a.removeBackend location backend)
  return (Output.success s!"Removed backend '{backend}' from '{location}'" form,
    a)

/-- Shows the history of the setting that is seen at a path. -/
def history (a : Archive) (form : OutputForm) (location path : String) :
    Except InvocationError (String × Archive) := do
  match ← (a.history location path).mapError .history with
  | some (scope, e) => return (Output.history path scope e form, a)
  | none => throw (.noEntry path location)

/-- Adds a location. -/
def addLocation (a : Archive) (form : OutputForm) (location : String)
    (parent : Option String) : Except InvocationError (String × Archive) := do
  let a ← attempt s!"Cannot create location '{location}'"
    (a.newLocation location parent)
  let inheriting := match parent with
    | some parent => s!" inheriting from '{parent}'"
    | none => ""
  return (Output.success (s!"Created location '{location}'" ++ inheriting) form,
    a)

end Operation

namespace Options

open Operation

/-- The location that an invocation is about: the one that is given, or the
current one.  It must be there. -/
def targetLocation (options : Options) (a : Archive) :
    Except InvocationError String := do
  let id := options.location.getD a.current
  let _ ← (a.location id).mapError .missingLocation
  return id

/-- Carries an operation out.  The answer is what is printed, and the archive
that is to be saved. -/
def carryOut (options : Options) (supplies : Supplies) (a : Archive) :
    Except InvocationError (String × Archive) := do
  let form := options.form
  match options.action with
  | .listLocations => return (Output.locations a.summaries form, a)
  | .changeLocation location =>
    let a ← attempt s!"Cannot switch to location '{location}'"
      (a.setCurrent location)
    return (Output.success s!"Current location is now '{location}'" form, a)
  | .addLocation location parent => addLocation a form location parent
  | .store backend =>
    let location ← targetLocation options a
    store a form supplies location backend
  | .rollback request preview =>
    let location ← targetLocation options a
    rollback a form supplies.now location request preview
  | .renameLocation newName =>
    let location ← targetLocation options a
    let a ← attempt s!"Cannot rename location '{location}'"
      (a.rename location newName)
    return (Output.success s!"Renamed location '{location}' to '{newName}'" form,
      a)
  | .removeLocation =>
    let location ← targetLocation options a
    let a ← attempt s!"Cannot remove location '{location}'"
      (a.removeLocation location)
    return (Output.success s!"Removed location '{location}'" form, a)
  | .addBackend backend master =>
    let location ← targetLocation options a
    addBackend a form location backend master
  | .removeBackend backend master =>
    let location ← targetLocation options a
    removeBackend a form location backend master
  | .history path =>
    let location ← targetLocation options a
    history a form location path

end Options

/-- Whether an operation reads a document from standard input. -/
def Action.readsInput : Action → Bool
  | .store _ => true
  | _ => false

end SettingsArchive
