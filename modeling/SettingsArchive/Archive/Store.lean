import SettingsArchive.Archive
import SettingsArchive.Document.Snapshot

/-!
# Storing

A write gets the next number of the archive.  All settings of one document
are written under one number.

Every setting of a document is checked before the first one is written.  A
setting may still be refused while the document is written, when two of its
paths name one setting: then those before it stay written.  `writeAll`
therefore gives the archive beside its answer.
-/

namespace SettingsArchive

/-- What storing a document did. -/
structure StoreReport where
  location : String
  backend : String
  revision : Option Nat
  stored : Nat
deriving DecidableEq, Repr

/-- The backend of a path, which must have a segment behind it. -/
def Path.backendOf (path : String) : Except ArchiveError String :=
  match Path.ofText? path with
  | some (backend :: _ :: _) => .ok backend
  | _ => .error (.invalidPath path)

namespace Archive

/-- The number of a write, and the archive with the next one.  The last
number is never used up. -/
def allocate (a : Archive) : Except ArchiveError (Nat × Archive) :=
  if a.nextRevision < Numeral.maxWord then
    .ok (a.nextRevision, { a with nextRevision := a.nextRevision + 1 })
  else .error .counterExhausted

/-- Stores the value of one setting. -/
def storeValue (a : Archive) (id path : String) (value : Value)
    (time : Instant) (mask : Mask) : Except ArchiveError (Nat × Archive) := do
  let backend ← Path.backendOf path
  let l ← a.location id
  l.tree.checkWrite path value time
  let (revision, a) ← a.allocate
  let tree ← l.tree.store path value time revision mask
  let l := { l with tree }.ensureBackend backend
  return (revision, (a.put l).changed)

/-- Writes settings one after the other under one number, up to the first one
that is refused. -/
def writeAll (l : Location) (time : Instant) (revision : Nat) (mask : Mask) :
    List (String × Value) → Except ArchiveError Unit × Location
  | [] => (.ok (), l)
  | (path, value) :: items =>
    match l.tree.store path value time revision mask with
    | .error e => (.error e, l)
    | .ok tree => writeAll { l with tree } time revision mask items

/-- Refuses a setting of a document that cannot be stored.  `seen` holds the
paths before it. -/
def checkItem (l : Location) (backend : String) (time : Instant)
    (seen : List String) (path : String) (value : Value) :
    Except ArchiveError Unit := do
  let b ← Path.backendOf path
  if b ≠ backend then throw (.invalidPath path)
  if path ∈ seen then throw (.duplicatePath path)
  l.tree.checkWrite path value time

/-- Refuses settings of a document that cannot be stored. -/
def checkItems (l : Location) (backend : String) (time : Instant)
    (seen : List String) : List (String × Value) → Except ArchiveError Unit
  | [] => .ok ()
  | (path, value) :: items => do
    checkItem l backend time seen path value
    checkItems l backend time (path :: seen) items

/-- The location and the number for a document that may be stored.  A
document without settings takes no number. -/
def prepareDocument (a : Archive) (id backend : String)
    (items : List (String × Value)) (time : Instant) :
    Except ArchiveError (Location × Option Nat × Archive) := do
  Location.checkBackend backend
  let l ← a.location id
  checkItems l backend time [] items
  if items.isEmpty then return (l, none, a)
  let (revision, a) ← a.allocate
  return (l, some revision, a)

/-- Stores settings of one backend. -/
def storeDocument (a : Archive) (id backend : String)
    (items : List (String × Value)) (time : Instant) (mask : Mask) :
    Except ArchiveError StoreReport × Archive :=
  match a.prepareDocument id backend items time with
  | .error e => (.error e, a)
  | .ok (l, revision, a) =>
    match writeAll l time (revision.getD 0) mask items with
    | (.error e, l) => (.error e, a.put l)
    | (.ok (), l) =>
      (.ok ⟨id, backend, revision, items.length⟩,
        (a.put (l.ensureBackend backend)).changed)

/-- Stores the settings of the text of a snapshot.  The backend that the
snapshot names does not matter. -/
def storeSnapshot (a : Archive) (id backend text : String) (time : Instant)
    (mask : Mask) : Except ArchiveError StoreReport × Archive :=
  match (Xml.Element.read text).mapError .xml with
  | .error e => (.error e, a)
  | .ok root =>
    match Snapshot.ofElement root backend with
    | .error e => (.error e, a)
    | .ok items => a.storeDocument id backend items time mask

/-- Removes a setting with its history.  The answer says whether there was
one. -/
def purge (a : Archive) (id path : String) :
    Except ArchiveError (Bool × Archive) := do
  let l ← a.location id
  match Path.ofText? path with
  | none => return (false, a)
  | some segments =>
    if (l.tree.get? segments).isNone then return (false, a)
    return (true, (a.put { l with tree := l.tree.erase segments }).changed)

/-- Trims the history of every setting of a location.  The answer is the
count of revisions that were dropped. -/
def trim (a : Archive) (id : String) (kept : Nat) :
    Except ArchiveError (Nat × Archive) := do
  let l ← a.location id
  let count := l.tree.excess kept
  if count = 0 then return (0, a)
  return (count, (a.put { l with tree := l.tree.trim kept }).changed)

end Archive

end SettingsArchive
