import SettingsArchive.Archive
import SettingsArchive.Document.Snapshot

/-!
# Reading

A setting is looked up in a location and the locations above it, and the
nearest one that holds it gives the value.  A snapshot shows the current
values of a location, with or without those that it inherits.
-/

namespace SettingsArchive

namespace Location

/-- The paths of the settings of a location, or of those of one backend. -/
def paths (l : Location) (backend : Option String) : List Path :=
  match backend with
  | none => l.tree.allEntries.map Prod.fst
  | some backend =>
    match Path.ofText? ("/" ++ backend) with
    | none => []
    | some above =>
      match l.tree.find? above with
      | none => []
      | some d => (d.entriesBelow above).map Prod.fst

end Location

namespace Archive

/-- The entry that is seen at a path, and the location that holds it. -/
def history (a : Archive) (id path : String) :
    Except ArchiveError (Option (String × Entry)) := do
  match Path.ofText? path with
  | none => throw (.invalidPath path)
  | some segments =>
    let scopes ← a.ancestors id
    return scopes.findSome? fun l => (l.tree.get? segments).map (l.id, ·)

/-- The value that is seen at a path. -/
def get (a : Archive) (id path : String) :
    Except ArchiveError (Option Value) := do
  let found ← a.history id path
  return found.map fun (_, e) => e.current

/-- The locations that an operation looks into: the location alone, or with
those above it. -/
def scopes (a : Archive) (id : String) (recursive : Bool) :
    Except ArchiveError (List Location) :=
  if recursive then a.ancestors id
  else do
    let l ← a.location id
    return [l]

/-- The paths of the settings in some locations, each once. -/
def pathsIn (scopes : List Location) (backend : Option String) : List Path :=
  (scopes.flatMap (·.paths backend)).eraseDups

/-- The entries at a path in some locations, nearest first. -/
def entriesAt (scopes : List Location) (path : Path) : List Entry :=
  scopes.filterMap (·.tree.get? path)

/-- The current values as a snapshot. -/
def snapshot (a : Archive) (id : String) (backend : Option String)
    (recursive : Bool) : Except ArchiveError Xml.Element := do
  let scopes ← a.scopes id recursive
  let items := (pathsIn scopes backend).filterMap fun path =>
    (entriesAt scopes path).head?.map fun e => (Path.text path, e.current)
  return Snapshot.toElement backend items

end Archive

end SettingsArchive
