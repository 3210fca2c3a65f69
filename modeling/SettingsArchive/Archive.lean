import SettingsArchive.Document.Database
import SettingsArchive.Policy
import SettingsArchive.Xml.Writer

/-!
# The archive

An archive holds the locations, the current location, the backends that are
registered archive-wide, the number of the next write and the policy of its
rollbacks.  It is dirty when something has changed that is not saved.

Operations are functions on archives.  One that is refused gives an error and
no archive, so nothing has changed.

This module has the beginning of an archive, its text, and the operations on
locations and backends.
-/

namespace SettingsArchive

/-- A versioned database of settings. -/
structure Archive where
  locations : List Location
  current : String
  masters : List String
  nextRevision : Nat
  policy : Policy
  dirty : Bool

namespace Archive

/-- The archive that holds the default location only. -/
def fresh : Archive where
  locations := [{ id := defaultId }]
  current := defaultId
  masters := []
  nextRevision := 1
  policy := .bestEffort
  dirty := false

instance : Inhabited Archive := ⟨fresh⟩

/-! ## Text -/

/-- What a document of the archive holds. -/
def contents (a : Archive) : Contents where
  locations := a.locations
  current := some a.current
  masters := a.masters
  nextRevision := a.nextRevision

/-- The archive that a document holds.  A current location that is not there
is replaced by the default one, which is a change. -/
def ofContents (c : Contents) : Archive :=
  let found := c.current.filter fun id => (findLocation? c.locations id).isSome
  { locations := c.locations
    current := found.getD defaultId
    masters := c.masters
    nextRevision := c.nextRevision
    policy := .bestEffort
    dirty := c.current.isSome && found.isNone }

/-- The text of the database. -/
def text (a : Archive) : String :=
  a.contents.toElement.document

/-- The archive that the text of a database holds. -/
def ofText (text : String) : Except ArchiveError Archive := do
  let root ← (Xml.Element.read text).mapError .xml
  ofContents <$> Contents.ofElement root

/-- The archive without directories that hold no entry. -/
def pruned (a : Archive) : Archive :=
  { a with locations :=
      a.locations.map fun l => { l with tree := l.tree.prune } }

/-- The archive as saving leaves it. -/
def saved (a : Archive) : Archive :=
  { a.pruned with dirty := false }

/-! ## Finding locations -/

/-- The location of this id. -/
def location (a : Archive) (id : String) : Except ArchiveError Location :=
  match findLocation? a.locations id with
  | some l => .ok l
  | none => .error (.locationNotFound id)

/-- Whether there is a location of this id. -/
def hasLocation (a : Archive) (id : String) : Bool :=
  (findLocation? a.locations id).isSome

/-- The overviews of all locations. -/
def summaries (a : Archive) : List LocationSummary :=
  a.locations.map (·.summary a.current)

/-- The locations whose parent has this id. -/
def children (a : Archive) (id : String) : List Location :=
  a.locations.filter (·.parent == some id)

/-- The location of this id and the locations above it, nearest first. -/
def ancestors (a : Archive) (id : String) :
    Except ArchiveError (List Location) :=
  chain a.locations id

/-- The archive with a location in place of the one of its id. -/
def put (a : Archive) (l : Location) : Archive :=
  { a with locations := a.locations.map fun m => if m.id = l.id then l else m }

/-- The archive with something to save. -/
def changed (a : Archive) : Archive :=
  { a with dirty := true }

/-! ## Changing locations -/

/-- Adds a location, which may inherit from a parent. -/
def newLocation (a : Archive) (id : String) (parent : Option String) :
    Except ArchiveError Archive := do
  if !Location.isValidId id then throw (.invalidLocationId id)
  if a.hasLocation id then throw (.locationExists id)
  match parent.filter (!a.hasLocation ·) with
  | some p => throw (.parentNotFound p)
  | none =>
    let l : Location := { id, parent }
    return { a with locations := a.locations ++ [l] }.changed

/-- Refuses a parent that is not there or that stands below the location. -/
def checkParent (a : Archive) (id parent : String) :
    Except ArchiveError Unit := do
  if !a.hasLocation parent then throw (.parentNotFound parent)
  let above ← a.ancestors parent
  if above.any (·.id == id) then throw (.parentCycle id parent)

/-- Gives a location another parent, or none. -/
def setParent (a : Archive) (id : String) (parent : Option String) :
    Except ArchiveError Archive := do
  if id = defaultId then throw (.defaultLocation .reparented)
  let l ← a.location id
  match parent with
  | some p => a.checkParent id p
  | none => pure ()
  return (a.put { l with parent }).changed

/-- An id as renaming a location leaves it. -/
def renamed (id newId other : String) : String :=
  if other = id then newId else other

/-- Renames a location.  The links to it follow. -/
def rename (a : Archive) (id newId : String) : Except ArchiveError Archive := do
  if id = defaultId then throw (.defaultLocation .renamed)
  if !Location.isValidId newId then throw (.invalidLocationId newId)
  let _ ← a.location id
  if a.hasLocation newId then throw (.locationExists newId)
  let locations := a.locations.map fun l =>
    { l with
      id := renamed id newId l.id
      parent := l.parent.map (renamed id newId) }
  return { a with locations, current := renamed id newId a.current }.changed

/-- Removes a location with all that it holds.  The current location and one
that is a parent stay. -/
def removeLocation (a : Archive) (id : String) :
    Except ArchiveError Archive := do
  if id = defaultId then throw (.defaultLocation .removed)
  let _ ← a.location id
  if a.current = id then throw (.locationInUse id .current)
  if !(a.children id).isEmpty then throw (.locationInUse id .parent)
  return { a with locations := without a.locations id }.changed

/-- Makes a location the current one. -/
def setCurrent (a : Archive) (id : String) : Except ArchiveError Archive := do
  let _ ← a.location id
  if a.current = id then return a
  return { a with current := id }.changed

/-! ## Backends -/

/-- Registers a backend at a location. -/
def addBackend (a : Archive) (id backend : String) :
    Except ArchiveError Archive := do
  let l ← a.location id
  let l ← l.addBackend backend
  return (a.put l).changed

/-- Removes a backend from a location.  Its settings stay. -/
def removeBackend (a : Archive) (id backend : String) :
    Except ArchiveError Archive := do
  let l ← a.location id
  let l ← l.removeBackend backend
  return (a.put l).changed

/-- Registers a backend archive-wide. -/
def addMaster (a : Archive) (backend : String) :
    Except ArchiveError Archive := do
  let masters ← Location.registered a.masters backend .archive
  return { a with masters }.changed

/-- Removes a backend that is registered archive-wide. -/
def removeMaster (a : Archive) (backend : String) :
    Except ArchiveError Archive := do
  let masters ← Location.unregistered a.masters backend .archive
  return { a with masters }.changed

end Archive

end SettingsArchive
