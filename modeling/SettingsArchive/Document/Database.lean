import SettingsArchive.Location
import SettingsArchive.Numeral

/-!
# Database documents

A database document holds everything that an archive saves: the locations
with their directories and histories, the current location, the backends that
are registered archive-wide and the number of the next write.

`Contents.toElement` writes a document and `Contents.ofElement` reads one.
Reading accepts only sound histories and links, and it corrects a number of
the next write that is too small.
-/

namespace SettingsArchive

open Xml (Element)

/-- What a database document holds.  A document may leave out the current
location. -/
structure Contents where
  locations : List Location
  current : Option String
  masters : List String
  nextRevision : Nat

/-- The version of the documents that are written, and the newest one that
is read. -/
def formatVersion : Nat := 1

namespace Contents

/-! ## Writing -/

/-- The element of a backend. -/
def backendElement (backend : String) : Element :=
  { name := "backend", attributes := [("id", backend)] }

/-- The element of a revision. -/
def revisionElement (r : Revision) : Element :=
  { name := "revision"
    attributes :=
      [("id", toString r.id), ("timestamp", r.time.rfc3339),
        ("mask", r.mask.name)]
        ++ (if r.superseded then [("superseded", "true")] else [])
    children := [r.value.writeOnto { name := "value" }] }

/-- The element of an entry. -/
def entryElement (e : Entry) : Element :=
  { name := "entry"
    attributes := [("name", e.name)]
    children := e.revisions.map revisionElement }

mutual

/-- The elements of what a directory holds. -/
def directoryElements : Directory → List Element
  | ⟨_, entries, directories⟩ =>
    entries.map entryElement ++ childElements directories

/-- The elements of some directories. -/
def childElements : List Directory → List Element
  | [] => []
  | d :: ds =>
    { name := "dir", attributes := [("name", d.name)],
      children := directoryElements d } :: childElements ds

end

/-- The element of a location. -/
def locationElement (l : Location) : Element :=
  { name := "location"
    attributes := ("id", l.id) :: match l.parent with
      | some parent => [("parent", parent)]
      | none => []
    children := l.backends.map backendElement ++ directoryElements l.tree }

/-- The document. -/
def toElement (c : Contents) : Element :=
  { name := "archive"
    attributes := ("version", toString formatVersion) ::
      (match c.current with
        | some current => [("current", current)]
        | none => []) ++
      [("next-revision", toString c.nextRevision)]
    children := c.masters.map backendElement
      ++ c.locations.map locationElement }

/-! ## Reading -/

/-- Refuses a document. -/
def corrupt {α : Type} (fault : Corruption) : Except ArchiveError α :=
  .error (.corrupt fault)

/-- The value of an attribute that must be there. -/
def required (e : Element) (key : String) : Except ArchiveError String :=
  match e.attribute? key with
  | some value => .ok value
  | none => corrupt (.missing e.name key)

/-- A number of sixty-four bits. -/
def wordOf? (text : String) : Option Nat :=
  (Numeral.readNat 10 Numeral.maxWord text.toList).toOption

/-- The mask of a revision.  A revision without one retired the revision
before it. -/
def maskOf (e : Element) : Except ArchiveError Mask :=
  match e.attribute? "mask" with
  | none => .ok .retire
  | some name =>
    match Mask.ofName? name with
    | some mask => .ok mask
    | none => corrupt (.mask name)

/-- A revision of the entry of this name. -/
def readRevision (entry : String) (e : Element) :
    Except ArchiveError Revision := do
  let idText ← required e "id"
  let id ← match wordOf? idText with
    | some id => .ok id
    | none => corrupt (.revisionId idText)
  let timeText ← required e "timestamp"
  let time ← match Instant.readRfc3339 timeText.toList with
    | .ok time => .ok time
    | .error fault => corrupt (.timestamp timeText fault)
  let mask ← maskOf e
  let value ← match e.childrenNamed "value" with
    | [] => corrupt (.noValue id entry)
    | v :: _ =>
      match Value.ofElement v with
      | .ok value => .ok value
      | .error fault => corrupt (.value entry fault)
  return ⟨id, time, value, mask, e.attribute? "superseded" == some "true"⟩

/-- Refuses a revision that cannot follow another one. -/
def checkOrder (entry : String) (before : Option Revision) (r : Revision) :
    Except ArchiveError Unit :=
  match before with
  | none => .ok ()
  | some p =>
    if r.id ≤ p.id ∨ r.time < p.time then corrupt (.disorder entry)
    else if r.value.kind ≠ p.value.kind then corrupt (.kindChange entry)
    else .ok ()

/-- The revisions of an entry behind a revision. -/
def readRevisions (entry : String) (before : Option Revision) :
    List Element → Except ArchiveError (List Revision)
  | [] => .ok []
  | e :: es => do
    let r ← readRevision entry e
    checkOrder entry before r
    let rs ← readRevisions entry (some r) es
    return r :: rs

/-- An entry. -/
def readEntry (e : Element) : Except ArchiveError Entry := do
  let name ← required e "name"
  if !Path.isSegment name then corrupt (.entryName name)
  let revisions ← readRevisions name none (e.childrenNamed "revision")
  match Entry.ofRevisions? name revisions with
  | some entry => return entry
  | none => corrupt (.noRevisions name)

mutual

/-- Adds what an element holds to a directory.  `above` is the path of the
directory. -/
def addElement (above : Path) (d : Directory) :
    Element → Except ArchiveError Directory
  | e@⟨kind, _, children, _⟩ =>
    if kind = "entry" then do
      let entry ← readEntry e
      if (d.getOwn? entry.name).isSome then
        corrupt (.duplicateEntry entry.name (Path.text above))
      return { d with entries := d.entries ++ [entry] }
    else if kind = "dir" then do
      let name ← required e "name"
      if !Path.isSegment name || (d.child? name).isSome then
        corrupt (.directory name (Path.text above))
      let child ← addElements (above ++ [name]) { name } children
      return { d with directories := d.directories ++ [child] }
    else .ok d

/-- Adds what some elements hold to a directory. -/
def addElements (above : Path) (d : Directory) :
    List Element → Except ArchiveError Directory
  | [] => .ok d
  | e :: es => do
    let d ← addElement above d e
    addElements above d es

end

/-- Registers the backends of a location. -/
def addBackends (l : Location) : List Element → Except ArchiveError Location
  | [] => .ok l
  | e :: es => do
    let id ← required e "id"
    let l ← l.addBackend id
    addBackends l es

/-- A location behind those before it. -/
def readLocation (before : List Location) (e : Element) :
    Except ArchiveError Location := do
  let id ← required e "id"
  if (findLocation? before id).isSome then corrupt (.duplicateLocation id)
  let l ← addBackends { id, parent := e.attribute? "parent" }
    (e.childrenNamed "backend")
  let tree ← addElements [] .empty e.children
  return { l with tree }

/-- The locations behind those before them. -/
def readLocations (before : List Location) :
    List Element → Except ArchiveError (List Location)
  | [] => .ok before
  | e :: es => do
    let l ← readLocation before e
    readLocations (before ++ [l]) es

/-- Refuses a document of a version that is not known. -/
def checkVersion (root : Element) : Except ArchiveError Unit :=
  match root.attribute? "version" with
  | none => .ok ()
  | some text =>
    match Numeral.readNat 10 Numeral.maxHalfWord text.toList with
    | .error _ => corrupt (.version text)
    | .ok version =>
      if formatVersion < version then corrupt (.unsupportedVersion version)
      else .ok ()

/-- The largest number of a write in some locations. -/
def lastRevision (locations : List Location) : Nat :=
  let entries := locations.flatMap fun l => l.tree.allEntries.map Prod.snd
  ((entries.flatMap Entry.revisions).map Revision.id).foldl max 0

/-- The number of the next write.  It is above all numbers that were used,
and there must be one. -/
def readNextRevision (root : Element) (locations : List Location) :
    Except ArchiveError Nat := do
  let stated ← match root.attribute? "next-revision" with
    | none => .ok 1
    | some text =>
      match wordOf? text with
      | some n => .ok n
      | none => corrupt (.nextRevision text)
  let used := lastRevision locations
  if used = Numeral.maxWord then throw .counterExhausted
  return max stated (used + 1)

/-- What a document holds. -/
def ofElement (root : Element) : Except ArchiveError Contents := do
  if root.name ≠ "archive" then corrupt (.rootElement root.name)
  checkVersion root
  let masters ← (root.childrenNamed "backend").mapM (required · "id")
  let locations ← readLocations [] (root.childrenNamed "location")
  match checkLinks locations with
  | .error fault => corrupt fault
  | .ok () =>
    let nextRevision ← readNextRevision root locations
    return ⟨locations, root.attribute? "current", masters, nextRevision⟩

end Contents

end SettingsArchive
