import SettingsArchive.Proofs.Storage.Disk

/-!
# Disks with links

On a linked disk a file has any number of names, and a name may be a symbolic
link, which stands for another path.  What bears a name is known by its place,
the content of a file by the number of the file.

A path is followed from name to name, and through any link on the way, up to as
many links as Linux goes through.  A link at the end is followed where a file
is opened, read or asked for (`LinkedDisk.Leads`), and taken for itself where a
name is made, moved or removed (`LinkedDisk.Names`).  What a path comes to
depends on the directories and links of the disk alone: see
`LinkedDisk.resolve_mono`.

There are files, directories and links, and nothing else that a name could
stand for, and all of them are on one file system.  A directory is not moved.
Where there are no links, this is the disk of `Disk`: see
`LinkedDisk.isSimulation_mirrors`.
-/

namespace SettingsArchive

/-- What bears a name on a linked disk. -/
inductive LinkedNode where
  | directory
  | file (number : Nat)
  | link (target : String)
deriving DecidableEq

/-- The numbers up to that of a file. -/
def LinkedNode.bound : LinkedNode → Nat
  | .file number => number + 1
  | _ => 0

/-- A disk with links.  Files have numbers below `nextNumber`. -/
structure LinkedDisk where
  nodes : Place → Option LinkedNode
  data : Nat → ByteArray
  nextNumber : Nat
  numbered : ∀ p number, nodes p = some (.file number) → number < nextNumber
  workingDirectory : Place := []
  locked : List Nat := []

namespace LinkedDisk

open Disk (End IsTaken maxName maxPath)

/-- The disk with nothing on it. -/
def blank : LinkedDisk where
  nodes _ := none
  data _ := .empty
  nextNumber := 0
  numbered := nofun

/-! ## Nodes -/

/-- What is at a place. -/
def node? (d : LinkedDisk) (place : Place) : Option LinkedNode :=
  if place = [] then some .directory else d.nodes place

/-- Whether there is a symbolic link at a place. -/
def isLink (d : LinkedDisk) (place : Place) : Bool :=
  match d.node? place with
  | some (.link _) => true
  | _ => false

/-- The disk with something at a place. -/
def put (d : LinkedDisk) (place : Place) (node : LinkedNode) : LinkedDisk where
  nodes p := if p = place then some node else d.nodes p
  data := d.data
  nextNumber := max d.nextNumber node.bound
  numbered p number h := by
    split at h
    · obtain rfl := Option.some.inj h
      exact Nat.le_max_right d.nextNumber (number + 1)
    · exact Nat.lt_of_lt_of_le (d.numbered p number h) (Nat.le_max_left _ _)
  workingDirectory := d.workingDirectory
  locked := d.locked

/-- The disk with nothing at a place. -/
def clear (d : LinkedDisk) (place : Place) : LinkedDisk where
  nodes p := if p = place then none else d.nodes p
  data := d.data
  nextNumber := d.nextNumber
  numbered p number h := d.numbered p number (Option.ite_none_left_eq_some.1 h).2
  workingDirectory := d.workingDirectory
  locked := d.locked

/-- The disk with a content for the file with a number. -/
def store (d : LinkedDisk) (number : Nat) (bytes : ByteArray) : LinkedDisk :=
  { d with data := fun n => if n = number then bytes else d.data n }

/-- The disk with a new file at a place. -/
def make (d : LinkedDisk) (place : Place) : LinkedDisk :=
  (d.put place (.file d.nextNumber)).store d.nextNumber .empty

/-! ## Following a path -/

/-- The names on a path. -/
def names (path : String) : List String :=
  (FilePath.parts path).filter (· ≠ "")

/-- Where a path begins that is met at a place. -/
def base (place : Place) (path : String) : Place :=
  if path.startsWith "/" then [] else place

/-- Follows names from a place, up to the last one or to the first link that
has to be followed, where `jump` goes on. -/
def trail (d : LinkedDisk) (follows slash : Bool)
    (jump : Place → String → List String → Except SystemError End) :
    Place → List String → Except SystemError End
  | place, [] => .ok (.at place)
  | place, name :: rest =>
    if name = "." then d.trail follows slash jump place rest
    else if name = ".." then d.trail follows slash jump place.dropLast rest
    else if rest.isEmpty && !(follows && d.isLink (place ++ [name])) then
      .ok (.named place name slash)
    else if maxName < name.utf8ByteSize then .error .nameTooLong
    else
      match d.node? (place ++ [name]) with
      | some .directory => d.trail follows slash jump (place ++ [name]) rest
      | some (.link target) => jump place target rest
      | some (.file _) => .error .notDirectory
      | none => .error .noEntry

/-- Follows names from a place and through a number of links.  `follows` tells
whether a link at the end is followed too, `slash` whether there is a slash
behind the last name. -/
def walk (d : LinkedDisk) (follows : Bool) :
    Nat → Bool → Place → List String → Except SystemError End
  | 0, slash => d.trail follows slash fun _ _ _ => .error .tooManyLinks
  | links + 1, slash => d.trail follows slash fun place target rest =>
    d.walk follows links (slash || rest.isEmpty && target.endsWith "/")
      (base place target) (names target ++ rest)

/-- The most links on the way of one path. -/
def maxLinks : Nat := 40

/-- What a path comes to. -/
def resolve (d : LinkedDisk) (follows : Bool) (path : String) :
    Except SystemError End :=
  if path.toList.contains '\x00' then .error .zeroByte
  else if path = "" then .error .noEntry
  else if maxPath < path.utf8ByteSize then .error .nameTooLong
  else d.walk follows maxLinks (path.endsWith "/") (base d.workingDirectory path)
    (names path)

/-- What has the name in a directory. -/
def look (d : LinkedDisk) (place : Place) (name : String) :
    Except SystemError (Option LinkedNode) :=
  if maxName < name.utf8ByteSize then .error .nameTooLong
  else .ok (d.node? (place ++ [name]))

/-- What a path leads to. -/
def find (d : LinkedDisk) (path : String) : Except SystemError LinkedNode := do
  match ← d.resolve true path with
  | .at _ => return .directory
  | .named place name slash =>
    match ← d.look place name, slash with
    | none, _ => throw .noEntry
    | some .directory, _ => return .directory
    | some _, true => throw .notDirectory
    | some node, false => return node

/-! ## Operations -/

/-- Whether a path leads to a directory. -/
def isDirectory (path : String) (d : LinkedDisk) : Bool :=
  d.find path matches .ok .directory

/-- Makes one directory. -/
def makeDirectory (path : String) (d : LinkedDisk) :
    Except SystemError LinkedDisk := do
  match ← d.resolve false path with
  | .at _ => throw .alreadyThere
  | .named place name _ =>
    match ← d.look place name with
    | some _ => throw .alreadyThere
    | none => return d.put (place ++ [name]) .directory

/-- The text of a file. -/
def readText (path : String) (d : LinkedDisk) : Except SystemError String := do
  match ← d.find path with
  | .file number =>
    match String.fromUTF8? (d.data number) with
    | some text => return text
    | none => throw .invalidText
  | _ => throw .isDirectory

/-- Opens a file for writing, which is made if it is missing.  The answer is its
number. -/
def openFile (path : String) (d : LinkedDisk) :
    Except SystemError (Nat × LinkedDisk) := do
  match ← d.resolve true path with
  | .at _ => throw .isDirectory
  | .named place name slash =>
    if slash then throw .isDirectory
    match ← d.look place name with
    | some .directory => throw .isDirectory
    | some (.file number) => return (number, d)
    | some (.link _) => throw .tooManyLinks
    | none => return (d.nextNumber, d.make (place ++ [name]))

/-- Gives a file, which is made if it is missing, its content. -/
def fill (path : String) (bytes : ByteArray) (d : LinkedDisk) :
    Except SystemError LinkedDisk := do
  let (number, d) ← openFile path d
  return d.store number bytes

/-- Gives a file or a link another name.  Nothing happens if that is a name of
the same file. -/
def rename (source target : String) (d : LinkedDisk) :
    Except SystemError LinkedDisk := do
  match ← d.resolve false source, ← d.resolve false target with
  | .named place name slash, .named newPlace newName newSlash =>
    let here := place ++ [name]
    let there := newPlace ++ [newName]
    match ← d.look place name with
    | none => throw .noEntry
    | some .directory => throw .isDirectory
    | some node =>
      let found ← d.look newPlace newName
      if slash || newSlash then throw .notDirectory
      match node, found with
      | _, some .directory => throw .isDirectory
      | .file number, some (.file other) =>
        if number = other then return d
        return (d.clear here).put there node
      | _, _ => return (d.clear here).put there node
  | _, _ => throw .busy

/-- Removes a name of a file, or a link. -/
def remove (path : String) (d : LinkedDisk) : Except SystemError LinkedDisk := do
  match ← d.resolve false path with
  | .at _ => throw .isDirectory
  | .named place name slash =>
    match ← d.look place name with
    | none => throw .noEntry
    | some .directory => throw .isDirectory
    | some _ =>
      if slash then throw .notDirectory
      return d.clear (place ++ [name])

/-- Takes the lock on a file, unless it is held. -/
def lock (path : String) (d : LinkedDisk) :
    Except SystemError (Option LockNumber × LinkedDisk) := do
  let (number, d) ← openFile path d
  if number ∈ d.locked then return (none, d)
  return (some number, { d with locked := number :: d.locked })

/-- Gives a lock back. -/
def unlock (number : LockNumber) (d : LinkedDisk) : LinkedDisk :=
  { d with locked := d.locked.filter (· ≠ number) }

instance : FileSystem (StateM LinkedDisk) where
  makeDirectory path := Disk.change (makeDirectory path)
  isDirectory path := return (← get).isDirectory path
  isThere path := return ((← get).find path).toBool
  readText path := Disk.act fun d => (·, d) <$> readText path d
  create path := Disk.change (fill path .empty)
  openLog path := Disk.change fun d => Prod.snd <$> openFile path d
  write path bytes := Disk.change (fill path bytes)
  rename source target := Disk.change (rename source target)
  remove path := Disk.change (remove path)
  lock path _ := Disk.act (lock path)
  unlock number := modify (unlock number)

variable {d e : LinkedDisk} {path : String}

/-! ## What is at a place -/

@[simp] theorem node?_nil (d : LinkedDisk) : d.node? [] = some .directory :=
  if_pos rfl

theorem node?_put (d : LinkedDisk) {p : Place} (hp : p ≠ []) (node : LinkedNode)
    (q : Place) :
    (d.put p node).node? q = if q = p then some node else d.node? q := by
  by_cases hq : q = []
  · rw [hq, if_neg (Ne.symm hp), node?_nil, node?_nil]
  · rw [node?, if_neg hq, node?, if_neg hq, put]

theorem node?_clear (d : LinkedDisk) {p : Place} (hp : p ≠ []) (q : Place) :
    (d.clear p).node? q = if q = p then none else d.node? q := by
  by_cases hq : q = []
  · rw [hq, if_neg (Ne.symm hp), node?_nil, node?_nil]
  · rw [node?, if_neg hq, node?, if_neg hq, clear]

@[simp] theorem node?_store (d : LinkedDisk) (number : Nat) (bytes : ByteArray)
    (q : Place) : (d.store number bytes).node? q = d.node? q :=
  rfl

theorem node?_make (d : LinkedDisk) {p : Place} (hp : p ≠ []) (q : Place) :
    (d.make p).node? q = if q = p then some (.file d.nextNumber) else d.node? q :=
  node?_put d hp _ q

theorem isLink_iff {p : Place} :
    d.isLink p ↔ ∃ target, d.node? p = some (.link target) := by
  unfold isLink
  split <;> simp_all

theorem lt_nextNumber {p : Place} {number : Nat}
    (h : d.node? p = some (.file number)) : number < d.nextNumber := by
  unfold node? at h
  split at h
  · cases h
  · exact d.numbered p number h

theorem look_eq_ok {place : Place} {name : String} {node : Option LinkedNode}
    (h : d.look place name = .ok node) :
    name.utf8ByteSize ≤ maxName ∧ d.node? (place ++ [name]) = node := by
  unfold look at h
  split at h
  · cases h
  · rename_i hsize
    exact ⟨Nat.not_lt.1 hsize, Except.ok.inj h⟩

theorem look_eq {place : Place} {name : String}
    (hsize : name.utf8ByteSize ≤ maxName) :
    d.look place name = .ok (d.node? (place ++ [name])) :=
  if_neg (Nat.not_lt.2 hsize)

/-! ## Routes -/

/-- A name that is looked up where it stands. -/
structure IsPlain (name : String) : Prop where
  dot : name ≠ "."
  dots : name ≠ ".."

/-- A name that something can bear. -/
structure IsBorne (name : String) : Prop extends IsPlain name where
  size : name.utf8ByteSize ≤ maxName

/-- How names are followed from a place to an end. -/
inductive Route (d : LinkedDisk) (follows : Bool) :
    Nat → Bool → Place → List String → End → Prop where
  | done {links : Nat} {slash : Bool} {place : Place} :
    Route d follows links slash place [] (.at place)
  | dot {links : Nat} {slash : Bool} {place : Place} {rest : List String} {r : End}
    (h : Route d follows links slash place rest r) :
    Route d follows links slash place ("." :: rest) r
  | dots {links : Nat} {slash : Bool} {place : Place} {rest : List String}
    {r : End} (h : Route d follows links slash place.dropLast rest r) :
    Route d follows links slash place (".." :: rest) r
  | last {links : Nat} {slash : Bool} {place : Place} {name : String}
    (hname : IsPlain name)
    (hlink : follows → d.isLink (place ++ [name]) = false) :
    Route d follows links slash place [name] (.named place name slash)
  | enter {links : Nat} {slash : Bool} {place : Place} {name : String}
    {rest : List String} {r : End} (hname : IsBorne name) (hrest : rest ≠ [])
    (hnode : d.node? (place ++ [name]) = some .directory)
    (h : Route d follows links slash (place ++ [name]) rest r) :
    Route d follows links slash place (name :: rest) r
  | jump {links : Nat} {slash : Bool} {place : Place} {name target : String}
    {rest : List String} {r : End} (hname : IsBorne name)
    (hrest : rest = [] → follows)
    (hnode : d.node? (place ++ [name]) = some (.link target))
    (h : Route d follows links (slash || rest.isEmpty && target.endsWith "/")
      (base place target) (names target ++ rest) r) :
    Route d follows (links + 1) slash place (name :: rest) r

theorem isLink_of_link {p : Place} {target : String}
    (h : d.node? p = some (.link target)) : d.isLink p :=
  isLink_iff.2 ⟨target, h⟩

/-- Names that are followed up to links take a route, if what is behind the
links does. -/
theorem route_of_trail {follows slash : Bool} {links : Nat}
    {go : Place → String → List String → Except SystemError End} {r : End}
    (hgo : ∀ place name target rest, IsBorne name → (rest = [] → follows) →
      d.node? (place ++ [name]) = some (.link target) →
      go place target rest = .ok r →
      Route d follows links slash place (name :: rest) r)
    {place : Place} {path : List String}
    (h : d.trail follows slash go place path = .ok r) :
    Route d follows links slash place path r := by
  induction path generalizing place with
  | nil =>
    obtain rfl := Except.ok.inj h
    exact .done
  | cons name rest ih =>
    rw [trail] at h
    split at h
    · rename_i hdot
      rw [hdot]
      exact .dot (ih h)
    · split at h
      · rename_i hdots
        rw [hdots]
        exact .dots (ih h)
      · rename_i hdot hdots
        have hname : IsPlain name := ⟨hdot, hdots⟩
        split at h
        · rename_i hstop
          obtain rfl := Except.ok.inj h
          rw [Bool.and_eq_true, List.isEmpty_iff] at hstop
          obtain ⟨rfl, hlink⟩ := hstop
          exact .last hname fun hfollows => by simpa [hfollows] using hlink
        · rename_i hgoes
          split at h
          · cases h
          · rename_i hsize
            have hborne : IsBorne name := ⟨hname, Nat.not_lt.1 hsize⟩
            split at h
            · rename_i hnode
              refine .enter hborne ?_ hnode (ih h)
              rintro rfl
              simp [isLink, hnode] at hgoes
            · rename_i target hnode
              refine hgo place name target rest hborne ?_ hnode h
              rintro rfl
              simp only [List.isEmpty_nil, Bool.true_and, Bool.not_eq_true',
                Bool.not_eq_false, Bool.and_eq_true] at hgoes
              exact hgoes.1
            · cases h
            · cases h

theorem route_of_walk {follows : Bool} {links : Nat} {slash : Bool}
    {place : Place} {path : List String} {r : End}
    (h : d.walk follows links slash place path = .ok r) :
    Route d follows links slash place path r := by
  induction links generalizing slash place path with
  | zero => exact route_of_trail (fun _ _ _ _ _ _ _ hgo => by cases hgo) h
  | succ links ih =>
    exact route_of_trail
      (fun _ _ _ _ hname hrest hnode hgo => .jump hname hrest hnode (ih hgo)) h

/-- The first step of a walk. -/
theorem walk_cons {follows : Bool} {links : Nat} {slash : Bool} {place : Place}
    {name : String} {rest : List String} (hname : IsPlain name) :
    d.walk follows links slash place (name :: rest) =
      if rest.isEmpty && !(follows && d.isLink (place ++ [name])) then
        .ok (.named place name slash)
      else if maxName < name.utf8ByteSize then .error .nameTooLong
      else
        match d.node? (place ++ [name]) with
        | some .directory => d.walk follows links slash (place ++ [name]) rest
        | some (.link target) =>
          match links with
          | 0 => .error .tooManyLinks
          | links + 1 =>
            d.walk follows links (slash || rest.isEmpty && target.endsWith "/")
              (base place target) (names target ++ rest)
        | some (.file _) => .error .notDirectory
        | none => .error .noEntry := by
  cases links <;>
    simp only [walk, trail, if_neg hname.dot, if_neg hname.dots]

/-- Names are followed along a route. -/
theorem Route.walk {follows : Bool} {links : Nat} {slash : Bool} {place : Place}
    {path : List String} {r : End} (h : Route d follows links slash place path r) :
    d.walk follows links slash place path = .ok r := by
  induction h with
  | @done links slash place => cases links <;> rfl
  | @dot links slash place rest r h ih => cases links <;> exact ih
  | @dots links slash place rest r h ih => cases links <;> exact ih
  | last hname hlink =>
    rw [walk_cons hname, if_pos]
    rw [List.isEmpty_nil, Bool.true_and, Bool.not_eq_true', Bool.and_eq_false_imp]
    exact hlink
  | enter hname hrest hnode h ih =>
    rw [walk_cons hname.toIsPlain, if_neg, if_neg (Nat.not_lt.2 hname.size), hnode]
    · exact ih
    · simp [hrest]
  | jump hname hrest hnode h ih =>
    rw [walk_cons hname.toIsPlain, if_neg, if_neg (Nat.not_lt.2 hname.size), hnode]
    · exact ih
    · rw [Bool.and_eq_true, List.isEmpty_iff]
      rintro ⟨hnil, hlink⟩
      simp [hrest hnil, isLink_of_link hnode] at hlink

/-! ## Where paths lead -/

/-- The directories and links of a disk are there on another one. -/
structure Extends (d e : LinkedDisk) : Prop where
  directory : ∀ p, d.node? p = some .directory → e.node? p = some .directory
  link : ∀ p target, d.node? p = some (.link target) →
    e.node? p = some (.link target)
  workingDirectory : e.workingDirectory = d.workingDirectory

namespace Extends

theorem refl (d : LinkedDisk) : Extends d d where
  directory _ h := h
  link _ _ h := h
  workingDirectory := rfl

/-- Nothing that a path leads through is lost with a file. -/
theorem clear {p : Place} (hp : p ≠ []) (hdirectory : d.node? p ≠ some .directory)
    (hlink : d.isLink p = false) : Extends d (d.clear p) where
  directory q hq := by
    rw [node?_clear d hp, if_neg, hq]
    rintro rfl
    exact hdirectory hq
  link q target hq := by
    rw [node?_clear d hp, if_neg, hq]
    rintro rfl
    simp [isLink, hq] at hlink
  workingDirectory := rfl

theorem clear_clear {p : Place} (h : Extends d e) (hp : p ≠ []) :
    Extends (d.clear p) (e.clear p) where
  directory q hq := by
    rw [node?_clear d hp] at hq
    obtain ⟨hne, hq⟩ := Option.ite_none_left_eq_some.1 hq
    rw [node?_clear e hp, if_neg hne, h.directory q hq]
  link q target hq := by
    rw [node?_clear d hp] at hq
    obtain ⟨hne, hq⟩ := Option.ite_none_left_eq_some.1 hq
    rw [node?_clear e hp, if_neg hne, h.link q target hq]
  workingDirectory := h.workingDirectory

end Extends

/-- An end that is no link. -/
def Stays (d : LinkedDisk) (r : End) : Prop :=
  ∀ place name slash, r = .named place name slash →
    d.isLink (place ++ [name]) = false

/-- A route is there where directories and links stay.  A link at the end is
taken for itself on both disks, or there is none. -/
theorem Route.mono {follows goes : Bool} (hext : Extends d e) {links : Nat}
    {slash : Bool} {place : Place} {path : List String} {r : End}
    (h : Route d follows links slash place path r) (hgoes : follows → goes)
    (hend : goes → Stays e r) : Route e goes links slash place path r := by
  induction h with
  | done => exact .done
  | dot h ih => exact .dot (ih hend)
  | dots h ih => exact .dots (ih hend)
  | last hname hlink => exact .last hname fun hg => hend hg _ _ _ rfl
  | enter hname hrest hnode h ih =>
    exact .enter hname hrest (hext.directory _ hnode) (ih hend)
  | jump hname hrest hnode h ih =>
    exact .jump hname (fun hnil => hgoes (hrest hnil)) (hext.link _ _ hnode)
      (ih hend)

/-- There is no link at the end of a route if one would be followed. -/
theorem Route.stays {follows : Bool} {links : Nat} {slash : Bool} {place : Place}
    {path : List String} {r : End} (h : Route d follows links slash place path r)
    (hfollows : follows) : Stays d r := by
  induction h with
  | done => exact nofun
  | dot h ih => exact ih
  | dots h ih => exact ih
  | last hname hlink =>
    rintro _ _ _ ⟨⟩
    exact hlink hfollows
  | enter hname hrest hnode h ih => exact ih
  | jump hname hrest hnode h ih => exact ih

/-- How a path is followed that a system call takes. -/
theorem resolve_eq_ok_iff {follows : Bool} {r : End} :
    d.resolve follows path = .ok r ↔ IsTaken path ∧ path ≠ "" ∧
      Route d follows maxLinks (path.endsWith "/")
        (base d.workingDirectory path) (names path) r := by
  constructor
  · intro h
    unfold resolve at h
    split at h
    · cases h
    · split at h
      · cases h
      · split at h
        · cases h
        · rename_i hzero hne hlength
          exact ⟨⟨by simpa using hzero, Nat.not_lt.1 hlength⟩, hne,
            route_of_walk h⟩
  · intro ⟨htaken, hne, hroute⟩
    rw [resolve, if_neg (by simpa using htaken.zero), if_neg hne,
      if_neg (Nat.not_lt.2 htaken.length)]
    exact hroute.walk

/-- What a path comes to depends on the directories and links alone. -/
theorem resolve_mono {follows goes : Bool} (hext : Extends d e) {r : End}
    (h : d.resolve follows path = .ok r) (hgoes : follows → goes)
    (hend : goes → Stays e r) : e.resolve goes path = .ok r := by
  rw [resolve_eq_ok_iff] at h ⊢
  obtain ⟨htaken, hne, hroute⟩ := h
  rw [hext.workingDirectory]
  exact ⟨htaken, hne, hroute.mono hext hgoes hend⟩

/-- A path comes to a name at a place, without a slash behind it. -/
def Reaches (d : LinkedDisk) (follows : Bool) (path : String) (p : Place) :
    Prop :=
  ∃ place name, p = place ++ [name] ∧ name.utf8ByteSize ≤ maxName ∧
    d.resolve follows path = .ok (.named place name false)

/-- A path is a name of what is at a place. -/
abbrev Names (d : LinkedDisk) : String → Place → Prop :=
  d.Reaches false

/-- A path leads to a place, through a link at its end if there is one. -/
abbrev Leads (d : LinkedDisk) : String → Place → Prop :=
  d.Reaches true

namespace Reaches

variable {follows : Bool} {p q : Place}

theorem ne_nil (h : d.Reaches follows path p) : p ≠ [] := by
  obtain ⟨place, name, rfl, -⟩ := h
  simp

theorem unique (h : d.Reaches follows path p) (h' : d.Reaches follows path q) :
    p = q := by
  obtain ⟨place, name, rfl, -, hp⟩ := h
  obtain ⟨place', name', rfl, -, hq⟩ := h'
  obtain ⟨rfl, rfl, -⟩ := End.named.inj (Except.ok.inj (hp.symm.trans hq))
  rfl

/-- A path that comes to a place does so where directories and links stay. -/
theorem mono {goes : Bool} (h : d.Reaches follows path p) (hext : Extends d e)
    (hgoes : follows → goes) (hlink : goes → e.isLink p = false) :
    e.Reaches goes path p := by
  obtain ⟨place, name, rfl, hsize, hr⟩ := h
  refine ⟨place, name, rfl, hsize, resolve_mono hext hr hgoes fun hg => ?_⟩
  rintro _ _ _ ⟨⟩
  exact hlink hg

theorem names_mono (h : d.Names path p) (hext : Extends d e) : e.Names path p :=
  h.mono hext id (by simp)

/-- There is no link where a path leads. -/
theorem isLink_eq (h : d.Leads path p) : d.isLink p = false := by
  obtain ⟨place, name, rfl, -, hr⟩ := h
  exact (resolve_eq_ok_iff.1 hr).2.2.stays rfl _ _ _ rfl

/-- A path leads to what it names, unless that is a link. -/
theorem leads (h : d.Names path p) (hlink : d.isLink p = false) :
    d.Leads path p :=
  h.mono (.refl d) (by simp) fun _ => hlink

end Reaches

end LinkedDisk

end SettingsArchive
