import SettingsArchive.Path
import SettingsArchive.Storage.Error
import SettingsArchive.Text.Quoted
import SettingsArchive.Value.Xml
import SettingsArchive.Instant.Reader
import SettingsArchive.Xml.Reader

/-!
# Errors of the archive

Every operation that can be refused says why with a value of `ArchiveError`.
`ArchiveError.message` is the wording, and `ArchiveError.kind` tells a bad
request from a missing target and from trouble with the database.

`Corruption` holds what can be wrong with a database document, and
`SnapshotFault` what can be wrong with a snapshot.
-/

namespace SettingsArchive

/-- What can be wrong with a database document. -/
inductive Corruption where
  | rootElement (name : String)
  | version (text : String)
  | unsupportedVersion (number : Nat)
  | missing (element key : String)
  | duplicateLocation (id : String)
  | duplicateEntry (name place : String)
  | directory (name place : String)
  | entryName (name : String)
  | revisionId (text : String)
  | timestamp (text : String) (fault : TimeFault)
  | mask (name : String)
  | noValue (id : Nat) (entry : String)
  | value (entry : String) (fault : ValueFault)
  | disorder (entry : String)
  | kindChange (entry : String)
  | noRevisions (entry : String)
  | noDefault
  | defaultHasParent
  | missingParent (location parent : String)
  | parentCycle (location : String)
  | nextRevision (text : String)
  | endlessChain (location : String)

/-- The wording of a fault in a database document. -/
def Corruption.message : Corruption → String
  | .rootElement name => s!"root element is <{name}>"
  | .version text => s!"invalid version '{text}'"
  | .unsupportedVersion number => s!"unsupported format version {number}"
  | .missing element key => s!"<{element}> is missing '{key}'"
  | .duplicateLocation id => s!"duplicate location '{id}'"
  | .duplicateEntry name place => s!"duplicate entry '{name}' in {place}"
  | .directory name place =>
    s!"invalid or duplicate directory '{name}' in {place}"
  | .entryName name => s!"invalid entry name '{name}'"
  | .revisionId text => s!"invalid revision id '{text}'"
  | .timestamp text fault => s!"invalid timestamp '{text}': " ++ fault.message
  | .mask name => s!"invalid mask '{name}'"
  | .noValue id entry => s!"revision {id} of '{entry}' has no value"
  | .value entry fault => s!"entry '{entry}': " ++ fault.message
  | .disorder entry => s!"history of '{entry}' is out of order"
  | .kindChange entry => s!"history of '{entry}' changes type"
  | .noRevisions entry => s!"entry '{entry}' has no revisions"
  | .noDefault => "no default location"
  | .defaultHasParent => "default location has a parent"
  | .missingParent location parent =>
    s!"location '{location}' names missing parent '{parent}'"
  | .parentCycle location => s!"parent cycle through location '{location}'"
  | .nextRevision text => s!"invalid next-revision '{text}'"
  | .endlessChain location =>
    s!"parent chain of '{location}' does not terminate"

/-- What can be wrong with a snapshot document, apart from its paths. -/
inductive SnapshotFault where
  | rootElement (name : String)
  | value (path : String) (fault : ValueFault)

/-- The wording of a fault in a snapshot document. -/
def SnapshotFault.message : SnapshotFault → String
  | .rootElement name => s!"expected <config> document, found <{name}>"
  | .value path fault => s!"entry '{path}': " ++ fault.message

/-- Why a location cannot be removed. -/
inductive LocationUse where
  | current
  | parent
deriving DecidableEq, Repr

/-- What cannot be done with the default location. -/
inductive DefaultGuard where
  | reparented
  | renamed
  | removed
deriving DecidableEq, Repr

/-- Where a backend is registered: at a location, or archive-wide. -/
inductive BackendScope where
  | location (id : String)
  | archive
deriving DecidableEq, Repr

/-- The wording of a scope behind the name of a backend. -/
def BackendScope.message : BackendScope → String
  | .location id => s!" in location '{id}'"
  | .archive => " archive-wide"

/-- Why an operation is refused. -/
inductive ArchiveError where
  | locationExists (id : String)
  | locationNotFound (id : String)
  | parentNotFound (id : String)
  | parentCycle (location parent : String)
  | locationInUse (location : String) (use : LocationUse)
  | defaultLocation (guard : DefaultGuard)
  | invalidLocationId (id : String)
  | duplicateBackend (backend : String) (scope : BackendScope)
  | backendNotRegistered (backend : String) (scope : BackendScope)
  | invalidPath (path : String)
  | duplicatePath (path : String)
  | typeMismatch (path : String) (expected found : Kind)
  | nonMonotonic (path : String) (time head : Instant)
  | noCriteria
  | unresolved (path : String)
  | corrupt (fault : Corruption)
  | xml (error : Xml.ReadError)
  | snapshot (fault : SnapshotFault)
  | storage (error : StorageError)
  | counterExhausted

/-- The groups of errors. -/
inductive ErrorKind where
  | invalid
  | notFound
  | storage
deriving DecidableEq, Repr

namespace ArchiveError

/-- The wording of an error. -/
def message : ArchiveError → String
  | .locationExists id => s!"Location already exists: {id}"
  | .locationNotFound id => s!"Location not found: {id}"
  | .parentNotFound id => s!"Parent location not found: {id}"
  | .parentCycle location parent =>
    s!"Setting parent of '{location}' to '{parent}' would create a cycle"
  | .locationInUse location .current =>
    s!"Location '{location}' is in use: it is the current location"
  | .locationInUse location .parent =>
    s!"Location '{location}' is in use: it has child locations"
  | .defaultLocation .reparented =>
    "The default location cannot be reparented"
  | .defaultLocation .renamed => "The default location cannot be renamed"
  | .defaultLocation .removed => "The default location cannot be removed"
  | .invalidLocationId id => "Invalid location id: " ++ Text.quoted id
  | .duplicateBackend backend scope =>
    s!"Backend '{backend}' is already registered" ++ scope.message
  | .backendNotRegistered backend scope =>
    s!"Backend '{backend}' is not registered" ++ scope.message
  | .invalidPath path => "Invalid key path: " ++ Text.quoted path
  | .duplicatePath path =>
    s!"Key path appears more than once in one store: {path}"
  | .typeMismatch path expected found =>
    s!"Type mismatch at '{path}': entry holds " ++ expected.name ++ ", got "
      ++ found.name
  | .nonMonotonic path time head =>
    "Timestamp " ++ time.display
      ++ s!" for '{path}' is earlier than its latest revision ("
      ++ head.display ++ ")"
  | .noCriteria =>
    "No rollback criteria given: need a date, --last, --steps or a revision id"
  | .unresolved path =>
    s!"No revision of '{path}' satisfies the rollback criteria"
  | .corrupt fault => "Archive document is corrupt: " ++ fault.message
  | .xml error => error.message
  | .snapshot fault => Xml.malformedMessage 0 fault.message
  | .storage error => error.message
  | .counterExhausted => "Revision counter exhausted"

/-- The group of an error. -/
def kind : ArchiveError → ErrorKind
  | .locationNotFound _ => .notFound
  | .parentNotFound _ => .notFound
  | .backendNotRegistered _ _ => .notFound
  | .unresolved _ => .notFound
  | .corrupt _ => .storage
  | .xml _ => .storage
  | .snapshot _ => .storage
  | .storage _ => .storage
  | _ => .invalid

end ArchiveError

end SettingsArchive
