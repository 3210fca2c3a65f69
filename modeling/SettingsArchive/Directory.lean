import SettingsArchive.Entry
import SettingsArchive.Path

/-!
# Directories

The settings of a location form a tree.  A directory has a name, entries and
directories, each in the order in which they came.  The root has no name.

A path leads to an entry: its last segment is the name of the entry and the
others are the directories on the way.  `get?` is the view of the tree as a
map from paths to entries, and `entries` lists it: the entries of a directory
first, then those below it.
-/

namespace SettingsArchive

/-- A directory of settings. -/
structure Directory where
  name : String
  entries : List Entry := []
  directories : List Directory := []

namespace Directory

/-- A tree without settings. -/
def empty : Directory := { name := "" }

instance : Inhabited Directory := ⟨empty⟩

/-- Whether a directory holds nothing. -/
def isEmpty (d : Directory) : Bool :=
  d.entries.isEmpty && d.directories.isEmpty

/-! ## Looking up -/

/-- The directory of this name directly within a directory. -/
def child? (d : Directory) (name : String) : Option Directory :=
  d.directories.find? (·.name == name)

/-- The directory that a path leads to. -/
def find? (d : Directory) : Path → Option Directory
  | [] => some d
  | name :: path => (d.child? name).bind (·.find? path)

/-- The entry of this name directly within a directory. -/
def getOwn? (d : Directory) (name : String) : Option Entry :=
  d.entries.find? (·.name == name)

/-- The entry that a path leads to. -/
def get? (d : Directory) : Path → Option Entry
  | [] => none
  | [name] => d.getOwn? name
  | name :: path => (d.child? name).bind (·.get? path)

/-! ## Changing -/

/-- Changes the entry of this name, or adds one at the end. -/
def putEntry (name : String) (change : Option Entry → Entry) :
    List Entry → List Entry
  | [] => [change none]
  | e :: es =>
    if e.name = name then change (some e) :: es
    else e :: putEntry name change es

/-- Changes the directory of this name, or adds one at the end. -/
def putChild (name : String) (change : Directory → Directory) :
    List Directory → List Directory
  | [] => [change { name }]
  | d :: ds =>
    if d.name = name then change d :: ds else d :: putChild name change ds

/-- Changes the entry that a path leads to, or adds one.  Directories that
are missing on the way are added. -/
def put (change : Option Entry → Entry) : Path → Directory → Directory
  | [], d => d
  | [name], d => { d with entries := putEntry name change d.entries }
  | name :: path, d =>
    { d with directories := putChild name (put change path) d.directories }

/-- The entries without the first one of this name. -/
def eraseEntry (name : String) : List Entry → List Entry
  | [] => []
  | e :: es => if e.name = name then es else e :: eraseEntry name es

/-- Changes the directory of this name, if there is one. -/
def changeChild (name : String) (change : Directory → Directory) :
    List Directory → List Directory
  | [] => []
  | d :: ds =>
    if d.name = name then change d :: ds else d :: changeChild name change ds

/-- The tree without the entry that a path leads to. -/
def erase : Path → Directory → Directory
  | [], d => d
  | [name], d => { d with entries := eraseEntry name d.entries }
  | name :: path, d =>
    { d with directories := changeChild name (erase path) d.directories }

/-! ## All entries -/

mutual

/-- The entries at and below a directory with their paths.  `above` is the
path of the directory. -/
def entriesBelow (above : Path) : Directory → List (Path × Entry)
  | ⟨_, entries, directories⟩ =>
    entries.map (fun e => (above ++ [e.name], e))
      ++ entriesOfAll above directories

/-- The entries at and below some directories within one directory. -/
def entriesOfAll (above : Path) : List Directory → List (Path × Entry)
  | [] => []
  | d :: ds =>
    entriesBelow (above ++ [d.name]) d ++ entriesOfAll above ds

end

/-- The entries of the whole tree with their paths. -/
def allEntries (d : Directory) : List (Path × Entry) :=
  entriesBelow [] d

mutual

/-- How many entries there are at and below a directory. -/
def entryCount : Directory → Nat
  | ⟨_, entries, directories⟩ => entries.length + entryCountOfAll directories

/-- How many entries there are at and below some directories. -/
def entryCountOfAll : List Directory → Nat
  | [] => 0
  | d :: ds => entryCount d + entryCountOfAll ds

end

/-! ## Trimming -/

mutual

/-- Trims every entry. -/
def trim (kept : Nat) : Directory → Directory
  | ⟨name, entries, directories⟩ =>
    ⟨name, entries.map (·.trim kept), trimAll kept directories⟩

/-- Trims every entry of some directories. -/
def trimAll (kept : Nat) : List Directory → List Directory
  | [] => []
  | d :: ds => trim kept d :: trimAll kept ds

end

/-- How many revisions a trim drops. -/
def excess (kept : Nat) (d : Directory) : Nat :=
  d.allEntries.foldr (fun (_, e) n => e.excess kept + n) 0

/-! ## Pruning -/

mutual

/-- Whether there is an entry at or below a directory. -/
def isLive : Directory → Bool
  | ⟨_, entries, directories⟩ => !entries.isEmpty || anyLive directories

/-- Whether there is an entry at or below one of some directories. -/
def anyLive : List Directory → Bool
  | [] => false
  | d :: ds => isLive d || anyLive ds

end

mutual

/-- The directory without the directories below it that hold no entry. -/
def prune : Directory → Directory
  | ⟨name, entries, directories⟩ => ⟨name, entries, pruneAll directories⟩

/-- The directories that hold an entry, pruned. -/
def pruneAll : List Directory → List Directory
  | [] => []
  | d :: ds => if isLive d then prune d :: pruneAll ds else pruneAll ds

end

mutual

/-- How many directories there are below a directory. -/
def directoryCount : Directory → Nat
  | ⟨_, _, directories⟩ => directoryCountOfAll directories

/-- How many directories there are among and below some directories. -/
def directoryCountOfAll : List Directory → Nat
  | [] => 0
  | d :: ds => directoryCount d + 1 + directoryCountOfAll ds

end

/-- How many directories pruning drops. -/
def deadCount (d : Directory) : Nat :=
  d.directoryCount - d.prune.directoryCount

/-! ## Equality -/

mutual

/-- Whether two directories are equal, with their values compared by `==`. -/
def same : Directory → Directory → Bool
  | ⟨m, es, ds⟩, ⟨n, fs, gs⟩ => m == n && es == fs && sameAll ds gs

/-- Whether two lists of directories are equal. -/
def sameAll : List Directory → List Directory → Bool
  | [], [] => true
  | d :: ds, g :: gs => same d g && sameAll ds gs
  | _, _ => false

end

instance : BEq Directory := ⟨same⟩

end Directory

end SettingsArchive
