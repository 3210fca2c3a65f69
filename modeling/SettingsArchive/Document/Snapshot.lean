import SettingsArchive.Error
import SettingsArchive.Value.Xml

/-!
# Snapshots

A snapshot is a document with one value for each setting.  Its root `config`
may name a backend, and then the paths are written without that segment.
Directories are nested elements.

Writing is canonical.  Settings are sorted by their segments, and in each
directory the entries stand in front of the directories, so equal settings
give one document whatever order they come in.  Reading keeps the order of
the document.
-/

namespace SettingsArchive.Snapshot

open Xml (Element)

/-! ## Writing -/

/-- The place of a setting below the root of a snapshot.  With a backend only
the settings below it have one. -/
def placeOf? (backend : Option String) (path : String) : Option Path :=
  match Path.ofText? path, backend with
  | some segments, none => some segments
  | some (b :: rest), some backend =>
    if b = backend ∧ rest ≠ [] then some rest else none
  | _, _ => none

/-- Puts an entry behind the entries and in front of the directories. -/
def insertEntry (entry : Element) : List Element → List Element
  | [] => [entry]
  | c :: cs =>
    if c.name = "dir" then entry :: c :: cs else c :: insertEntry entry cs

/-- Changes the children of the directory of this name, or adds one. -/
def inDirectory (name : String) (change : List Element → List Element) :
    List Element → List Element
  | [] =>
    [{ name := "dir", attributes := [("name", name)], children := change [] }]
  | c :: cs =>
    if c.name = "dir" ∧ c.attribute? "name" = some name then
      { c with children := change c.children } :: cs
    else c :: inDirectory name change cs

/-- Puts a value at a place among the children of an element. -/
def insertAt (value : Value) : Path → List Element → List Element
  | [], children => children
  | [name], children =>
    let entry := { name := "entry", attributes := [("name", name)] }
    insertEntry (value.writeOnto entry) children
  | name :: rest, children =>
    inDirectory name (insertAt value rest) children

/-- The settings with their places, sorted by their segments. -/
def sorted (backend : Option String) (items : List (String × Value)) :
    List (Path × Value) :=
  let placed := items.filterMap fun (path, value) =>
    (placeOf? backend path).map (·, value)
  placed.mergeSort fun a b => a.1.notAfter b.1

/-- The snapshot of some settings. -/
def toElement (backend : Option String) (items : List (String × Value)) :
    Element :=
  let attributes := match backend with
    | some backend => [("backend", backend)]
    | none => []
  let children := (sorted backend items).foldl
    (fun children (place, value) => insertAt value place children) []
  { name := "config", attributes, children }

/-! ## Reading -/

/-- The name of an entry or a directory. -/
def nameOf (e : Element) : Except ArchiveError String :=
  let name := (e.attribute? "name").getD ""
  if Path.isSegment name then .ok name else .error (.invalidPath name)

mutual

/-- The settings of a child of an element.  `above` is the text of the path
of that element. -/
def readChild (above : String) :
    Element → Except ArchiveError (List (String × Value))
  | e@⟨kind, _, children, _⟩ =>
    if kind = "entry" then do
      let name ← nameOf e
      let path := above ++ "/" ++ name
      match Value.ofElement e with
      | .ok value => return [(path, value)]
      | .error fault => throw (.snapshot (.value path fault))
    else if kind = "dir" then do
      let name ← nameOf e
      readChildren (above ++ "/" ++ name) children
    else .ok []

/-- The settings of some children of an element. -/
def readChildren (above : String) :
    List Element → Except ArchiveError (List (String × Value))
  | [] => .ok []
  | e :: es => do
    let items ← readChild above e
    let rest ← readChildren above es
    return items ++ rest

end

/-- The settings of a snapshot, with their paths below a backend. -/
def ofElement (root : Element) (backend : String) :
    Except ArchiveError (List (String × Value)) :=
  if root.name = "config" then readChildren ("/" ++ backend) root.children
  else .error (.snapshot (.rootElement root.name))

end SettingsArchive.Snapshot
