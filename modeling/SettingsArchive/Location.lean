import SettingsArchive.Directory
import SettingsArchive.Error
import SettingsArchive.Text.Blank

/-!
# Locations

A location is a named set of settings with the backends that are registered
at it.  It may have a parent, whose settings it inherits.  Parents are named
by their ids, so links are a matter of the list of all locations.

`chain` follows the links from a location upwards.  `checkLinks` says whether
the links of a list of locations are sound: the default location is there and
has no parent, every parent is there, and no chain runs in a circle.
-/

namespace SettingsArchive

/-- A named set of settings. -/
structure Location where
  id : String
  parent : Option String := none
  tree : Directory := .empty
  backends : List String := []

/-- Locations are compared by all that they hold. -/
instance : BEq Location where
  beq l m :=
    l.id == m.id && l.parent == m.parent && l.tree == m.tree
      && l.backends == m.backends

/-- What a list of locations shows of one. -/
structure LocationSummary where
  id : String
  parent : Option String
  backends : List String
  entries : Nat
  current : Bool
deriving DecidableEq, Repr

/-- The id of the location that is always there. -/
def defaultId : String := "default"

namespace Location

/-- Whether a text can be the id of a location: it is not empty, has no
slash, and neither begins nor ends with a blank. -/
def isValidId (id : String) : Bool :=
  id ≠ "" && Text.trim id.toList == id.toList && !id.toList.contains '/'

/-- Whether a text can be a backend.  A backend is the first segment of a
path. -/
def isValidBackend (backend : String) : Bool :=
  Path.isSegment backend

/-- Refuses a text that can be no backend. -/
def checkBackend (backend : String) : Except ArchiveError Unit :=
  if isValidBackend backend then .ok () else .error (.invalidPath backend)

/-- The overview of a location. -/
def summary (l : Location) (current : String) : LocationSummary :=
  ⟨l.id, l.parent, l.backends, l.tree.entryCount, l.id == current⟩

/-! ## Backends -/

/-- A list of backends with one more, which must be valid and new. -/
def registered (backends : List String) (backend : String)
    (scope : BackendScope) : Except ArchiveError (List String) := do
  checkBackend backend
  if backend ∈ backends then throw (.duplicateBackend backend scope)
  return backends ++ [backend]

/-- A list of backends without one that is there. -/
def unregistered (backends : List String) (backend : String)
    (scope : BackendScope) : Except ArchiveError (List String) :=
  if backend ∈ backends then .ok (backends.erase backend)
  else .error (.backendNotRegistered backend scope)

/-- Registers a backend at a location. -/
def addBackend (l : Location) (backend : String) :
    Except ArchiveError Location := do
  let backends ← registered l.backends backend (.location l.id)
  return { l with backends }

/-- Removes a backend from a location. -/
def removeBackend (l : Location) (backend : String) :
    Except ArchiveError Location := do
  let backends ← unregistered l.backends backend (.location l.id)
  return { l with backends }

/-- Registers a backend at a location unless it is there. -/
def ensureBackend (l : Location) (backend : String) : Location :=
  if backend ∈ l.backends then l
  else { l with backends := l.backends ++ [backend] }

/-! ## Settings -/

/-- The entry that the text of a path names. -/
def lookup (l : Location) (path : String) : Option Entry :=
  (Path.ofText? path).bind l.tree.get?

end Location

namespace Directory

/-- Refuses a value that the entry of a path cannot take: one of another
kind, and one dated before the head. -/
def checkWrite (d : Directory) (path : String) (value : Value)
    (time : Instant) : Except ArchiveError Unit :=
  match Path.ofText? path with
  | none => .error (.invalidPath path)
  | some segments =>
    match d.get? segments with
    | none => .ok ()
    | some e =>
      if e.kind ≠ value.kind then
        .error (.typeMismatch path e.kind value.kind)
      else if time < e.head.time then
        .error (.nonMonotonic path time e.head.time)
      else .ok ()

/-- An entry with one more revision, or a new entry of that revision. -/
def appended (name : String) (r : Revision) : Option Entry → Entry
  | some e => e.append r
  | none => .ofFirst name r

/-- The tree with one more revision of the setting of a path. -/
def write (d : Directory) (path : Path) (r : Revision) : Directory :=
  d.put (appended (path.getLastD "") r) path

/-- Writes a value, unless the entry of the path cannot take it. -/
def store (d : Directory) (path : String) (value : Value) (time : Instant)
    (id : Nat) (mask : Mask) : Except ArchiveError Directory := do
  d.checkWrite path value time
  match Path.ofText? path with
  | none => throw (.invalidPath path)
  | some segments => return d.write segments ⟨id, time, value, mask, false⟩

end Directory

/-! ## Links -/

/-- The location of this id. -/
def findLocation? (locations : List Location) (id : String) :
    Option Location :=
  locations.find? (·.id == id)

/-- A location and the locations above it, nearest first, at most so many
steps up.  `start` is the location that was asked for. -/
def chainFrom (locations : List Location) (start : String) :
    Nat → Location → Except ArchiveError (List Location)
  | steps, l =>
    match l.parent with
    | none => .ok [l]
    | some parent =>
      match steps with
      | 0 => .error (.corrupt (.endlessChain start))
      | steps + 1 =>
        match findLocation? locations parent with
        | none => .error (.locationNotFound parent)
        | some p => (l :: ·) <$> chainFrom locations start steps p

/-- The location of this id and the locations above it, nearest first. -/
def chain (locations : List Location) (id : String) :
    Except ArchiveError (List Location) :=
  match findLocation? locations id with
  | none => .error (.locationNotFound id)
  | some l => chainFrom locations id locations.length l

/-- The locations but those of this id. -/
def without (locations : List Location) (id : String) : List Location :=
  locations.filter (·.id ≠ id)

/-- A location that is there is missing afterwards. -/
theorem length_without_lt {locations : List Location} {id : String}
    (h : ∃ l ∈ locations, l.id = id) :
    (without locations id).length < locations.length := by
  obtain ⟨l, hl, hid⟩ := h
  exact List.length_filter_lt_length_iff_exists.2 ⟨l, hl, by simp [hid]⟩

/-- Follows the links up from a location.  `unseen` holds the locations that
are not yet passed, and `parent` is the next link. -/
def checkChain (locations : List Location) (start : String)
    (unseen : List Location) (parent : Option String) :
    Except Corruption Unit :=
  match parent with
  | none => .ok ()
  | some id =>
    match findLocation? locations id with
    | none => .error (.missingParent start id)
    | some p =>
      if _ : ∃ l ∈ unseen, l.id = id then
        checkChain locations start (without unseen id) p.parent
      else .error (.parentCycle start)
termination_by unseen.length
decreasing_by exact length_without_lt ‹_›

/-- Refuses locations whose links are not sound. -/
def checkLinks (locations : List Location) : Except Corruption Unit :=
  match findLocation? locations defaultId with
  | none => .error .noDefault
  | some d =>
    if d.parent.isSome then .error .defaultHasParent
    else
      locations.forM fun l =>
        checkChain locations l.id (without locations l.id) l.parent

end SettingsArchive
